import Mathlib.Analysis.Real.Sqrt
import Mathlib.Tactic.Rify
import RetroScript.Proofs.Clipping
import RetroScript.Proofs.NearestNumber

/-!
# Circles and discs

The canvas is scanned, not the circle, and still nothing on the canvas is missed or added: `circle_pixels`. A disc
is scanned by rows alone, so it covers the ends of its rows, but not always those of its columns:
`disc_covers_outline`. Half a width is a rounded root of a rounded number. Up to a radius of `2 ^ 25` it is the
nearest integer all the same: `roundedRoot_bounds`.
-/

namespace RetroScript.Video

/-! ### Rounded roots -/

section

variable {n : ℕ}

theorem roundedRoot_near (below : (2 * n : ℚ) < Number.ceiling) :
    ∃ w v : ℚ, Number.RootNear w v ∧ |v - n| ≤ n / 9007199254740992 ∧ (n < 9007199254740992 → v = n) ∧
      (roundedRoot n : ℚ) - 1 / 2 ≤ w ∧ w < roundedRoot n + 1 / 2 := by
  obtain ⟨m, q, known, near, same⟩ := Number.read_ofNat_near below
  obtain ⟨m', q', known', root⟩ := Number.read_sqrt_near known
  have nearest : roundedRoot n = Number.nearestPart m' q' := by
    unfold roundedRoot Number.nearestNat
    rw [known']
  rw [nearest]
  exact ⟨m' * 2 ^ q', m * 2 ^ q, root, near, same, Number.nearestPart_bounds m' q'⟩

theorem two_mul_lt_ceiling (small : n ≤ 2 ^ 126) : (2 * n : ℚ) < Number.ceiling := by
  have cast : (n : ℚ) ≤ 2 ^ 126 := by exact_mod_cast small
  calc (2 * n : ℚ) ≤ 2 * 2 ^ 126 := by linarith
    _ = 2 ^ (127 : ℤ) := by norm_num
    _ < Number.ceiling := zpow_lt_zpow_right₀ (by norm_num) (by norm_num)

theorem roundedRoot_le (small : n ≤ 2 ^ 126) : roundedRoot n ≤ 2 ^ 65 := by
  obtain ⟨w, v, ⟨nonneg, low, -⟩, near, -, left, -⟩ := roundedRoot_near (two_mul_lt_ceiling small)
  have cast : (n : ℚ) ≤ 2 ^ 126 := by exact_mod_cast small
  have size : v ≤ 2 ^ 127 := by linarith [(abs_le.mp near).2]
  by_contra large
  have large' : (2 ^ 65 + 1 : ℚ) ≤ roundedRoot n := by exact_mod_cast Nat.lt_of_not_le large
  have half : (2 ^ 64 : ℚ) ≤ w - w / 9007199254740992 := by linarith
  have square : (2 ^ 64 : ℚ) ^ 2 ≤ (w - w / 9007199254740992) ^ 2 := pow_le_pow_left₀ (by norm_num) half 2
  linarith

/-- The nearest integer, and no tie. -/
theorem roundedRoot_bounds (small : n ≤ 1125899906842624) :
    n ≤ roundedRoot n * roundedRoot n + roundedRoot n ∧
      (roundedRoot n = 0 ∨ roundedRoot n * roundedRoot n < n + roundedRoot n) := by
  obtain ⟨w, v, ⟨nonneg, low, high⟩, -, same, left, right⟩ :=
    roundedRoot_near (two_mul_lt_ceiling (le_trans small (by norm_num)))
  obtain rfl := same (by omega)
  generalize roundedRoot n = h at *
  have cast : (n : ℚ) ≤ 1125899906842624 := by exact_mod_cast small
  have shrunk : ∀ x : ℚ, 0 ≤ x → x ≤ w → (x - x / 9007199254740992) ^ 2 ≤ n := by
    intro x positive le
    exact le_trans (pow_le_pow_left₀ (by linarith) (by linarith) 2) low
  have size : h ≤ 33554432 := by
    by_contra large
    have large' : (33554433 : ℚ) ≤ h := by exact_mod_cast Nat.lt_of_not_le large
    have square := shrunk 33554432.5 (by norm_num) (by linarith)
    norm_num at square
    linarith
  have size' : (h : ℚ) ≤ 33554432 := by exact_mod_cast size
  constructor
  · have square : (n : ℚ) ≤ ((h + 1 / 2) + (h + 1 / 2) / 9007199254740992) ^ 2 :=
      le_trans high (pow_le_pow_left₀ (by linarith) (by linarith) 2)
    have less : (n : ℚ) < h * h + h + 1 := by nlinarith
    exact Nat.le_of_lt_succ (by exact_mod_cast less)
  · rcases Nat.eq_zero_or_pos h with none | positive
    · exact Or.inl none
    · have one : (1 : ℚ) ≤ h := by exact_mod_cast positive
      have square := shrunk (h - 1 / 2) (by linarith) left
      have less : (h * h : ℚ) < n + h := by nlinarith
      exact Or.inr (by exact_mod_cast less)

theorem roundedRoot_eq {h : ℕ} (small : n ≤ 1125899906842624) (high : n ≤ h * h + h) (low : h = 0 ∨ h * h < n + h) :
    roundedRoot n = h := by
  obtain ⟨high', low'⟩ := roundedRoot_bounds small
  generalize roundedRoot n = k at *
  rcases Nat.lt_trichotomy k h with less | same | more
  · have : k * (k + 1) ≤ (h - 1) * h := Nat.mul_le_mul (by omega) less
    have : (h - 1) * h = h * h - h := Nat.sub_one_mul h h
    have : k * (k + 1) = k * k + k := Nat.mul_succ k k
    have := Nat.le_mul_self h
    omega
  · exact same
  · have : h * (h + 1) ≤ (k - 1) * k := Nat.mul_le_mul (by omega) more
    have : (k - 1) * k = k * k - k := Nat.sub_one_mul k k
    have : h * (h + 1) = h * h + h := Nat.mul_succ h h
    have := Nat.le_mul_self k
    omega

theorem abs_roundedRoot_sub_lt (small : n ≤ 1125899906842624) : |(roundedRoot n : ℝ) - √n| < 1 / 2 := by
  obtain ⟨high, low⟩ := roundedRoot_bounds small
  generalize roundedRoot n = h at *
  have high' : (n : ℝ) ≤ h * h + h := by exact_mod_cast high
  have root : √(n : ℝ) < h + 1 / 2 := by
    rw [Real.sqrt_lt' (by positivity)]
    nlinarith
  rw [abs_lt]
  refine ⟨by linarith, ?_⟩
  rcases low with rfl | low
  · have := Real.sqrt_nonneg (n : ℝ)
    push_cast
    linarith
  · have low' : (h * h + 1 : ℝ) ≤ n + h := by exact_mod_cast low
    have root' : (h : ℝ) - 1 / 2 < √n := Real.lt_sqrt_of_sq_lt (by nlinarith)
    linarith

/-- Beyond that the two roundings show. -/
theorem abs_roundedRoot_sub_le (small : n ≤ 2 ^ 126) :
    |(roundedRoot n : ℝ) - √n| ≤ 1 / 2 + √n / 4503599627370496 := by
  obtain ⟨w, v, ⟨nonneg, low, high⟩, near, -, left, right⟩ := roundedRoot_near (two_mul_lt_ceiling small)
  generalize roundedRoot n = h at *
  obtain ⟨less, more⟩ := abs_le.mp near
  rify at nonneg low high less more left right
  have square : √(n : ℝ) * √n = n := Real.mul_self_sqrt (Nat.cast_nonneg n)
  have positive := Real.sqrt_nonneg (n : ℝ)
  rw [← square] at less more
  generalize √(n : ℝ) = s at *
  have upper : (w : ℝ) - w / 9007199254740992 ≤ s + s / 18014398509481984 := by
    apply le_of_sq_le_sq _ (by positivity)
    nlinarith
  have lower : s - s / 9007199254740992 ≤ (w : ℝ) + w / 9007199254740992 := by
    apply le_of_sq_le_sq _ (by positivity)
    nlinarith
  rw [abs_le]
  constructor <;> linarith

end

/-! ### Half a width -/

def halfWidth (r d : ℤ) : ℤ := roundedRoot (r * r - d * d).toNat

variable {center p : Point} {r d : ℤ}

theorem chord_eq (r d : ℤ) : chord r d = if |d| ≤ r then some (halfWidth r d) else none := by
  unfold chord
  rw [← Int.abs_eq_natAbs]
  by_cases inside : |d| ≤ r
  · rw [if_pos inside, if_neg (not_lt.mpr inside)]
    rfl
  · rw [if_neg inside, if_pos (not_le.mp inside)]

theorem halfWidth_neg (r d : ℤ) : halfWidth r (-d) = halfWidth r d := by
  unfold halfWidth
  rw [neg_mul_neg]

theorem halfWidth_nonneg (r d : ℤ) : 0 ≤ halfWidth r d := Int.natCast_nonneg _

theorem squares_le (inside : |d| ≤ r) : 0 ≤ r * r - d * d ∧ r * r - d * d ≤ r * r ∧ d * d ≤ r * r := by
  have square : d * d ≤ r * r := by
    rw [← abs_mul_abs_self d]
    exact mul_self_le_mul_self (abs_nonneg d) inside
  have nonneg := mul_self_nonneg d
  omega

theorem square_le_of_isWord (word : Number.IsWord r) : r * r ≤ 2 ^ 126 := by
  have bound := word.natAbs_le
  have size : |r| ≤ 2 ^ 63 := by
    rw [Int.abs_eq_natAbs]
    omega
  rw [← abs_mul_abs_self r]
  calc |r| * |r| ≤ 2 ^ 63 * 2 ^ 63 := mul_self_le_mul_self (abs_nonneg r) size
    _ = 2 ^ 126 := by norm_num

theorem toNat_le_of_isWord (word : Number.IsWord r) (inside : |d| ≤ r) : (r * r - d * d).toNat ≤ 2 ^ 126 := by
  have := squares_le inside
  have := square_le_of_isWord word
  omega

theorem toNat_le_of_le (small : r ≤ 33554432) (inside : |d| ≤ r) : (r * r - d * d).toNat ≤ 1125899906842624 := by
  have := squares_le inside
  have nonneg : 0 ≤ r := le_trans (abs_nonneg d) inside
  have : r * r ≤ 33554432 * 33554432 := mul_self_le_mul_self nonneg small
  omega

/-! ### Scans -/

theorem mem_range {k : ℕ} {n : ℤ} : n ∈ range k ↔ 0 ≤ n ∧ n < k := by
  simp only [range, List.mem_map, List.mem_range]
  constructor
  · rintro ⟨i, inside, rfl⟩
    exact ⟨Int.natCast_nonneg i, Int.ofNat_lt.mpr inside⟩
  · rintro ⟨nonneg, inside⟩
    exact ⟨n.toNat, by omega, Int.toNat_of_nonneg nonneg⟩

theorem natAbs_le_of_mem_range {k : ℕ} {n : ℤ} (member : n ∈ range k) : n.natAbs ≤ k := by
  have := mem_range.mp member
  omega

theorem mem_interval {a b n : ℤ} : n ∈ interval a b ↔ a ≤ n ∧ n ≤ b := by
  simp only [interval, List.mem_map, mem_range]
  constructor
  · rintro ⟨i, inside, rfl⟩
    omega
  · rintro ⟨low, high⟩
    exact ⟨n - a, by omega, by omega⟩

theorem mem_rowEnds {y : ℤ} :
    p ∈ rowEnds center r y ↔
      p.y = y ∧ |y - center.y| ≤ r ∧ |p.x - center.x| = halfWidth r (y - center.y) := by
  have nonneg := halfWidth_nonneg r (y - center.y)
  obtain ⟨px, py⟩ := p
  unfold rowEnds
  rw [chord_eq]
  by_cases inside : |y - center.y| ≤ r
  · rw [if_pos inside]
    simp only [List.mem_cons, List.not_mem_nil, or_false, Point.mk.injEq, inside, true_and,
      Int.abs_eq_natAbs (px - center.x)]
    omega
  · rw [if_neg inside]
    simp [inside]

theorem mem_columnEnds {x : ℤ} :
    p ∈ columnEnds center r x ↔
      p.x = x ∧ |x - center.x| ≤ r ∧ |p.y - center.y| = halfWidth r (x - center.x) := by
  have nonneg := halfWidth_nonneg r (x - center.x)
  obtain ⟨px, py⟩ := p
  unfold columnEnds
  rw [chord_eq]
  by_cases inside : |x - center.x| ≤ r
  · rw [if_pos inside]
    simp only [List.mem_cons, List.not_mem_nil, or_false, Point.mk.injEq, inside, true_and,
      Int.abs_eq_natAbs (py - center.y)]
    omega
  · rw [if_neg inside]
    simp [inside]

theorem Mode.mem_rowInside {m : Mode} {y : ℤ} :
    p ∈ m.rowInside center r y ↔
      p.y = y ∧ (0 ≤ p.x ∧ p.x < m.columns) ∧ |y - center.y| ≤ r ∧ |p.x - center.x| ≤ halfWidth r (y - center.y) := by
  obtain ⟨px, py⟩ := p
  unfold rowInside
  rw [chord_eq]
  by_cases inside : |y - center.y| ≤ r
  · rw [if_pos inside]
    simp only [List.mem_map, mem_interval, Point.mk.injEq, inside, true_and,
      Int.abs_eq_natAbs (px - center.x)]
    constructor
    · rintro ⟨x, between, rfl, rfl⟩
      omega
    · rintro ⟨rfl, between⟩
      exact ⟨px, by omega, rfl, rfl⟩
  · rw [if_neg inside]
    simp [inside]

/-- An end of a row or of a column of the circle, whatever the canvas is. -/
def OnOutline (center : Point) (r : ℤ) (p : Point) : Prop :=
  |p.y - center.y| ≤ r ∧ |p.x - center.x| = halfWidth r (p.y - center.y) ∨
    |p.x - center.x| ≤ r ∧ |p.y - center.y| = halfWidth r (p.x - center.x)

def OnDisc (center : Point) (r : ℤ) (p : Point) : Prop :=
  |p.y - center.y| ≤ r ∧ |p.x - center.x| ≤ halfWidth r (p.y - center.y)

instance : Decidable (OnOutline center r p) := instDecidableOr

instance : Decidable (OnDisc center r p) := instDecidableAnd

theorem Mode.mem_circlePoints {m : Mode} (onCanvas : m.OnCanvas p) : p ∈ m.circlePoints center r ↔ OnOutline center r p := by
  unfold circlePoints OnOutline
  obtain ⟨left, right, low, high⟩ := onCanvas
  by_cases negative : r < 0
  · have none : ∀ d : ℤ, ¬ |d| ≤ r := fun d => not_le.mpr (lt_of_lt_of_le negative (abs_nonneg d))
    simp [if_pos negative, none]
  · simp only [if_neg negative, List.mem_append, List.mem_flatMap, mem_range, mem_rowEnds, mem_columnEnds]
    constructor
    · rintro (⟨y, -, rfl, inside⟩ | ⟨x, -, rfl, inside⟩)
      · exact Or.inl inside
      · exact Or.inr inside
    · rintro (inside | inside)
      · exact Or.inl ⟨p.y, ⟨low, high⟩, rfl, inside⟩
      · exact Or.inr ⟨p.x, ⟨left, right⟩, rfl, inside⟩

theorem Mode.mem_discPoints {m : Mode} : p ∈ m.discPoints center r ↔ m.OnCanvas p ∧ OnDisc center r p := by
  unfold discPoints OnDisc OnCanvas
  by_cases negative : r < 0
  · have none : ∀ d : ℤ, ¬ |d| ≤ r := fun d => not_le.mpr (lt_of_lt_of_le negative (abs_nonneg d))
    simp [if_pos negative, none]
  · simp only [if_neg negative, List.mem_flatMap, mem_range, mem_rowInside]
    constructor
    · rintro ⟨y, between, rfl, columns, inside⟩
      exact ⟨⟨columns.1, columns.2, between⟩, inside⟩
    · rintro ⟨⟨left, right, between⟩, inside⟩
      exact ⟨p.y, between, rfl, ⟨left, right⟩, inside⟩

theorem onOutline_offset (center : Point) (r i j : ℤ) :
    OnOutline center r ⟨center.x + i, center.y + j⟩ ↔
      |j| ≤ r ∧ |i| = halfWidth r j ∨ |i| ≤ r ∧ |j| = halfWidth r i := by
  unfold OnOutline
  rw [add_sub_cancel_left, add_sub_cancel_left]

/-! ### Wide words -/

/-- A number as a double word; none if it is out of range. -/
def wide? (n : ℤ) : Option ℤ := if -2 ^ 127 ≤ n ∧ n < 2 ^ 127 then some n else none

/-- `chord`, where every result of arithmetic has to be a double word. -/
def chord? (r d : ℤ) : Option (Option ℤ) := do
  let size ← wide? d.natAbs
  if size > r then return none
  let outer ← wide? (r * r)
  let inner ← wide? (d * d)
  let rest ← wide? (outer - inner)
  let half ← wide? (roundedRoot rest.toNat)
  return some half

def rowEnds? (center : Point) (r y : ℤ) : Option (List Point) := do
  let d ← wide? (y - center.y)
  match ← chord? r d with
  | some half => return [⟨← wide? (center.x - half), y⟩, ⟨← wide? (center.x + half), y⟩]
  | none => return []

def columnEnds? (center : Point) (r x : ℤ) : Option (List Point) := do
  let d ← wide? (x - center.x)
  match ← chord? r d with
  | some half => return [⟨x, ← wide? (center.y - half)⟩, ⟨x, ← wide? (center.y + half)⟩]
  | none => return []

def Mode.rowInside? (m : Mode) (center : Point) (r y : ℤ) : Option (List Point) := do
  let d ← wide? (y - center.y)
  match ← chord? r d with
  | some half =>
    let left ← wide? (center.x - half)
    let right ← wide? (center.x + half)
    let last ← wide? (m.columns - 1)
    return (interval (max left 0) (min right last)).map (⟨·, y⟩)
  | none => return []

namespace Memory

/-- One turn of a scan. -/
def plot? (c : Color) (points : ℤ → Option (List Point)) (m : Memory) (n : ℤ) : Option Memory := do
  (← points n).foldlM (setPixel? c) m

/-- `drawCircle` and `fillCircle`, where every double word and index is checked. -/
def drawCircle? (m : Memory) (center : Point) (r : ℤ) (c : Color) : Option Memory :=
  if r < 0 then some m
  else do
    let scanned ← (range height).foldlM (plot? c (rowEnds? center r)) m
    (range m.mode.columns).foldlM (plot? c (columnEnds? center r)) scanned

def fillCircle? (m : Memory) (center : Point) (r : ℤ) (c : Color) : Option Memory :=
  if r < 0 then some m else (range height).foldlM (plot? c (m.mode.rowInside? center r)) m

end Memory

theorem wide?_eq {n : ℤ} (small : n.natAbs < 2 ^ 127) : wide? n = some n := by
  unfold wide?
  rw [if_pos (by omega)]

theorem chord?_eq (word : Number.IsWord r) (small : d.natAbs < 2 ^ 65) : chord? r d = some (chord r d) := by
  unfold chord? chord
  simp only [Option.bind_eq_bind]
  rw [wide?_eq (by omega), Option.bind_some]
  by_cases outside : (d.natAbs : ℤ) > r
  · rw [if_pos outside, if_pos outside]
    rfl
  · have inside : |d| ≤ r := by
      rw [Int.abs_eq_natAbs]
      exact not_lt.mp outside
    have squares := squares_le inside
    have square := square_le_of_isWord word
    have nonneg := mul_self_nonneg d
    have root := roundedRoot_le (toNat_le_of_isWord word inside)
    rw [if_neg outside, if_neg outside, wide?_eq (by omega), Option.bind_some, wide?_eq (by omega), Option.bind_some,
      wide?_eq (by omega), Option.bind_some, wide?_eq (by omega)]
    rfl

theorem halfWidth_le (word : Number.IsWord r) (inside : |d| ≤ r) : halfWidth r d ≤ 2 ^ 65 := by
  have root := roundedRoot_le (toNat_le_of_isWord word inside)
  unfold halfWidth
  omega

section

variable {n : ℤ} (x : Number.IsWord center.x) (y : Number.IsWord center.y) (word : Number.IsWord r)
include x y word

theorem rowEnds?_eq (small : n.natAbs ≤ 1000) : rowEnds? center r n = some (rowEnds center r n) := by
  have bounds := And.intro x.natAbs_le y.natAbs_le
  unfold rowEnds? rowEnds
  simp only [Option.bind_eq_bind]
  rw [wide?_eq (by omega), Option.bind_some, chord?_eq word (by omega), Option.bind_some, chord_eq]
  by_cases inside : |n - center.y| ≤ r
  · have half := And.intro (halfWidth_nonneg r (n - center.y)) (halfWidth_le word inside)
    rw [if_pos inside]
    dsimp only
    rw [wide?_eq (by omega), Option.bind_some, wide?_eq (by omega)]
    rfl
  · rw [if_neg inside]
    rfl

theorem columnEnds?_eq (small : n.natAbs ≤ 1000) : columnEnds? center r n = some (columnEnds center r n) := by
  have bounds := And.intro x.natAbs_le y.natAbs_le
  unfold columnEnds? columnEnds
  simp only [Option.bind_eq_bind]
  rw [wide?_eq (by omega), Option.bind_some, chord?_eq word (by omega), Option.bind_some, chord_eq]
  by_cases inside : |n - center.x| ≤ r
  · have half := And.intro (halfWidth_nonneg r (n - center.x)) (halfWidth_le word inside)
    rw [if_pos inside]
    dsimp only
    rw [wide?_eq (by omega), Option.bind_some, wide?_eq (by omega)]
    rfl
  · rw [if_neg inside]
    rfl

theorem Mode.rowInside?_eq (m : Mode) (small : n.natAbs ≤ 1000) :
    m.rowInside? center r n = some (m.rowInside center r n) := by
  have bounds := And.intro x.natAbs_le y.natAbs_le
  have columns := m.columns_le
  unfold rowInside? rowInside
  simp only [Option.bind_eq_bind]
  rw [wide?_eq (by omega), Option.bind_some, chord?_eq word (by omega), Option.bind_some, chord_eq]
  by_cases inside : |n - center.y| ≤ r
  · have half := And.intro (halfWidth_nonneg r (n - center.y)) (halfWidth_le word inside)
    rw [if_pos inside]
    dsimp only
    rw [wide?_eq (by omega), Option.bind_some, wide?_eq (by omega), Option.bind_some, wide?_eq (by omega)]
    rfl
  · rw [if_neg inside]
    rfl

end

namespace Memory

variable (m : Memory) (c : Color)

theorem paint_append (ps qs : List Point) : m.paint (ps ++ qs) c = (m.paint ps c).paint qs c := List.foldl_append

/-- The run lemma of a scan. -/
theorem foldlM_plot? {points? : ℤ → Option (List Point)} {points : ℤ → List Point} {scan : List ℤ}
    (checked : ∀ n ∈ scan, points? n = some (points n)) :
    scan.foldlM (plot? c points?) m = some (m.paint (scan.flatMap points) c) := by
  induction scan generalizing m with
  | nil => rfl
  | cons n scan ih =>
    have first : plot? c points? m n = some (m.paint (points n) c) := by
      unfold plot?
      rw [checked n List.mem_cons_self]
      exact foldlM_setPixel? c m (points n)
    rw [List.foldlM_cons, first, List.flatMap_cons, paint_append]
    exact ih (m.paint (points n) c) fun k member => checked k (List.mem_cons_of_mem n member)

theorem drawCircle?_eq (x : Number.IsWord center.x) (y : Number.IsWord center.y) (word : Number.IsWord r) :
    m.drawCircle? center r c = some (m.drawCircle center r c) := by
  have columns := m.mode.columns_le
  unfold drawCircle? drawCircle Mode.circlePoints
  by_cases negative : r < 0
  · rw [if_pos negative, if_pos negative]
    rfl
  · have rows : (range height).foldlM (plot? c (rowEnds? center r)) m =
        some (m.paint ((range height).flatMap (rowEnds center r)) c) := by
      apply foldlM_plot?
      intro n member
      exact rowEnds?_eq x y word (le_trans (natAbs_le_of_mem_range member) (by decide))
    rw [if_neg negative, if_neg negative, rows, paint_append]
    apply foldlM_plot?
    intro n member
    exact columnEnds?_eq x y word (le_trans (natAbs_le_of_mem_range member) (by omega))

theorem fillCircle?_eq (x : Number.IsWord center.x) (y : Number.IsWord center.y) (word : Number.IsWord r) :
    m.fillCircle? center r c = some (m.fillCircle center r c) := by
  unfold fillCircle? fillCircle Mode.discPoints
  by_cases negative : r < 0
  · rw [if_pos negative, if_pos negative]
    rfl
  · rw [if_neg negative, if_neg negative]
    apply foldlM_plot?
    intro n member
    exact m.mode.rowInside?_eq x y word (le_trans (natAbs_le_of_mem_range member) (by decide))

end Memory

/-! ### Drawing -/

theorem Memory.pixel?_drawCircle (m : Memory) (center : Point) (r : ℤ) (c : Color) (p : Point) :
    (m.drawCircle center r c).pixel? p = if m.mode.OnCanvas p ∧ OnOutline center r p then some c else m.pixel? p := by
  rw [drawCircle, pixel?_paint]
  apply if_congr _ rfl rfl
  rw [and_comm]
  exact and_congr_right Mode.mem_circlePoints

theorem Memory.pixel?_fillCircle (m : Memory) (center : Point) (r : ℤ) (c : Color) (p : Point) :
    (m.fillCircle center r c).pixel? p = if m.mode.OnCanvas p ∧ OnDisc center r p then some c else m.pixel? p := by
  rw [fillCircle, pixel?_paint]
  apply if_congr _ rfl rfl
  rw [Mode.mem_discPoints, and_iff_left_iff_imp]
  exact And.left

/-- What drawing and filling a circle comes to. -/
structure CircleDrawn (m : Memory) (center : Point) (r : ℤ) (c : Color) : Prop where
  outline : ∀ p, (m.drawCircle center r c).pixel? p =
    if m.mode.OnCanvas p ∧ OnOutline center r p then some c else m.pixel? p
  disc : ∀ p, (m.fillCircle center r c).pixel? p =
    if m.mode.OnCanvas p ∧ OnDisc center r p then some c else m.pixel? p
  negative : r < 0 → m.drawCircle center r c = m ∧ m.fillCircle center r c = m
  /-- Nothing overflows, and no index is outside. -/
  checked : m.drawCircle? center r c = some (m.drawCircle center r c) ∧
    m.fillCircle? center r c = some (m.fillCircle center r c)
  chords : ∀ d, chord r d = if |d| ≤ r then some (halfWidth r d) else none
  rounded : ∀ d, |d| ≤ r →
    |(halfWidth r d : ℝ) - √((r * r - d * d : ℤ) : ℝ)| ≤ 1 / 2 + √((r * r - d * d : ℤ) : ℝ) / 4503599627370496
  nearest : r ≤ 33554432 → ∀ d, |d| ≤ r → |(halfWidth r d : ℝ) - √((r * r - d * d : ℤ) : ℝ)| < 1 / 2
  mirrored : ∀ i j,
    (OnOutline center r ⟨center.x - i, center.y + j⟩ ↔ OnOutline center r ⟨center.x + i, center.y + j⟩) ∧
    (OnOutline center r ⟨center.x + i, center.y - j⟩ ↔ OnOutline center r ⟨center.x + i, center.y + j⟩)
  exchanged : ∀ i j,
    OnOutline center r ⟨center.x + j, center.y + i⟩ ↔ OnOutline center r ⟨center.x + i, center.y + j⟩

theorem sqrt_toNat (inside : |d| ≤ r) : √((r * r - d * d : ℤ) : ℝ) = √((r * r - d * d).toNat : ℝ) := by
  have cast : ((r * r - d * d).toNat : ℤ) = r * r - d * d := Int.toNat_of_nonneg (squares_le inside).1
  rw [← cast]
  rfl

/-- For all centres and radii, and in every mode. -/
theorem circle_pixels (m : Memory) (x : Number.IsWord center.x) (y : Number.IsWord center.y) (word : Number.IsWord r)
    (c : Color) : CircleDrawn m center r c := by
  constructor
  case outline => exact m.pixel?_drawCircle center r c
  case disc => exact m.pixel?_fillCircle center r c
  case negative =>
    intro negative
    rw [Memory.drawCircle, Memory.fillCircle, Mode.circlePoints, Mode.discPoints, if_pos negative, if_pos negative]
    exact ⟨rfl, rfl⟩
  case checked => exact ⟨m.drawCircle?_eq c x y word, m.fillCircle?_eq c x y word⟩
  case chords => exact chord_eq r
  case rounded =>
    intro d inside
    rw [sqrt_toNat inside]
    exact abs_roundedRoot_sub_le (toNat_le_of_isWord word inside)
  case nearest =>
    intro small d inside
    rw [sqrt_toNat inside]
    exact abs_roundedRoot_sub_lt (toNat_le_of_le small inside)
  case mirrored =>
    intro i j
    have side := onOutline_offset center r (-i) j
    have below := onOutline_offset center r i (-j)
    rw [abs_neg, halfWidth_neg, ← onOutline_offset] at side below
    exact ⟨side, below⟩
  case exchanged =>
    intro i j
    rw [onOutline_offset, onOutline_offset]
    exact or_comm

theorem halfWidth_two : halfWidth 2 1 = 2 ∧ halfWidth 2 2 = 0 := by
  constructor
  · show ((roundedRoot 3 : ℕ) : ℤ) = 2
    rw [roundedRoot_eq (h := 2) (by decide) (by decide) (by decide)]
    rfl
  · show ((roundedRoot 0 : ℕ) : ℤ) = 0
    rw [roundedRoot_eq (h := 0) (by decide) (by decide) (by decide)]
    rfl

theorem circle_pixels_small_and_large :
    (({} : Memory).drawCircle ⟨10, 10⟩ 2 7).pixel? ⟨11, 12⟩ = some 7 ∧
    CircleDrawn {} ⟨Number.minWord, Number.maxWord⟩ Number.maxWord 7 := by
  constructor
  · have drawn : CircleDrawn {} ⟨10, 10⟩ 2 7 :=
      circle_pixels {} ⟨by decide, by decide⟩ ⟨by decide, by decide⟩ ⟨by decide, by decide⟩ 7
    rw [drawn.outline, if_pos ⟨by decide, Or.inr ⟨by decide, halfWidth_two.1.symm⟩⟩]
  · exact circle_pixels {} ⟨by decide, by decide⟩ ⟨by decide, by decide⟩ ⟨by decide, by decide⟩ 7

/-! ### Discs and outlines -/

theorem halfWidth_bounds (small : r ≤ 33554432) (inside : |d| ≤ r) :
    r * r - d * d ≤ halfWidth r d * halfWidth r d + halfWidth r d ∧
      (halfWidth r d = 0 ∨ halfWidth r d * halfWidth r d < r * r - d * d + halfWidth r d) := by
  obtain ⟨high, low⟩ := roundedRoot_bounds (toNat_le_of_le small inside)
  have cast : ((r * r - d * d).toNat : ℤ) = r * r - d * d := Int.toNat_of_nonneg (squares_le inside).1
  unfold halfWidth
  rw [← cast]
  generalize (r * r - d * d).toNat = n at *
  exact ⟨by exact_mod_cast high, by exact_mod_cast low⟩

/-- A pixel is no farther to the side than half the width if the middle of its inner edge is inside the circle. -/
theorem le_halfWidth_iff (small : r ≤ 33554432) (inside : |d| ≤ r) {k : ℤ} (nonneg : 0 ≤ k) :
    k ≤ halfWidth r d ↔ k = 0 ∨ k * k - k + d * d < r * r := by
  have positive := halfWidth_nonneg r d
  obtain ⟨high, low⟩ := halfWidth_bounds small inside
  generalize halfWidth r d = h at *
  constructor
  · intro le
    rcases eq_or_lt_of_le nonneg with zero | more
    · exact Or.inl zero.symm
    · have less : h * h < r * r - d * d + h := low.resolve_left (by omega)
      have : 0 ≤ (h - k) * (h + k - 1) := mul_nonneg (by omega) (by omega)
      exact Or.inr (by nlinarith)
  · rintro (rfl | less)
    · exact positive
    · by_contra more
      have : 0 ≤ (k - h - 1) * (k + h) := mul_nonneg (by omega) (by omega)
      nlinarith

theorem onDisc_iff (small : r ≤ 33554432) :
    OnDisc center r p ↔ |p.y - center.y| ≤ r ∧ (p.x = center.x ∨
      |p.x - center.x| * |p.x - center.x| - |p.x - center.x| + |p.y - center.y| * |p.y - center.y| < r * r) := by
  unfold OnDisc
  apply and_congr_right
  intro inside
  rw [le_halfWidth_iff small inside (abs_nonneg _), abs_eq_zero, sub_eq_zero, abs_mul_abs_self (p.y - center.y)]

/-- The ends of a column, in the same terms. -/
theorem column_end_bounds (small : r ≤ 33554432) {i j : ℤ} (inside : |i| ≤ r) (half : |j| = halfWidth r i) :
    |j| ≤ r ∧ (j = 0 ∨ |j| * |j| - |j| + |i| * |i| < r * r) := by
  have least := (le_halfWidth_iff small inside (abs_nonneg j)).mp half.le
  rw [← abs_mul_abs_self i, abs_eq_zero] at least
  refine ⟨?_, least⟩
  rcases least with rfl | less
  · rw [abs_zero]
    exact le_trans (abs_nonneg i) inside
  · have := abs_nonneg i
    have := abs_nonneg j
    by_contra more
    nlinarith

/-- How much of an outline its disc covers. -/
structure DiscCovers (m : Memory) (center : Point) (r : ℤ) (c : Color) : Prop where
  outline : ∀ p, (m.drawCircle center r c).pixel? p =
    if p ∈ (Shape.circle center r).pixels m.mode then some c else m.pixel? p
  disc : ∀ p, (m.fillCircle center r c).pixel? p =
    if p ∈ (Shape.disc center r).pixels m.mode then some c else m.pixel? p
  /-- The ends of the rows, for any radius. -/
  rows : ∀ p ∈ (Shape.circle center r).pixels m.mode, |p.y - center.y| ≤ r →
    |p.x - center.x| = halfWidth r (p.y - center.y) → p ∈ (Shape.disc center r).pixels m.mode
  /-- What is missed is steep, and the middle of its inner edge is not inside the circle. -/
  covered : r ≤ 33554432 → ∀ p ∈ (Shape.circle center r).pixels m.mode,
    (p ∈ (Shape.disc center r).pixels m.mode ↔ p.x = center.x ∨ |p.y - center.y| ≤ |p.x - center.x| ∨
      |p.x - center.x| * |p.x - center.x| - |p.x - center.x| + |p.y - center.y| * |p.y - center.y| < r * r)
  /-- No gap is left between the two. -/
  inward : r ≤ 33554432 → ∀ p ∈ (Shape.circle center r).pixels m.mode, ∀ q, m.mode.OnCanvas q → q.x = p.x →
    |q.y - center.y| < |p.y - center.y| → q ∈ (Shape.disc center r).pixels m.mode

theorem mem_pixels_circle {m : Mode} :
    p ∈ (Shape.circle center r).pixels m ↔ m.OnCanvas p ∧ OnOutline center r p := by
  rw [Shape.mem_pixels, and_comm]
  exact and_congr_right Mode.mem_circlePoints

theorem mem_pixels_disc {m : Mode} : p ∈ (Shape.disc center r).pixels m ↔ m.OnCanvas p ∧ OnDisc center r p := by
  rw [Shape.mem_pixels, Shape.points, Mode.mem_discPoints, and_iff_left_iff_imp]
  exact And.left

/-- A pixel of an outline is on the disc, or an end of a column and as such bounded the other way round. -/
theorem OnOutline.bounds (small : r ≤ 33554432) (outline : OnOutline center r p) :
    |p.y - center.y| ≤ r ∧ (OnDisc center r p ∨ |p.x - center.x| ≤ r ∧ (p.y = center.y ∨
      |p.y - center.y| * |p.y - center.y| - |p.y - center.y| + |p.x - center.x| * |p.x - center.x| < r * r)) := by
  rcases outline with ⟨inside, half⟩ | ⟨inside, half⟩
  · exact ⟨inside, Or.inl ⟨inside, half.le⟩⟩
  · obtain ⟨inside', least⟩ := column_end_bounds small inside half
    rw [sub_eq_zero] at least
    exact ⟨inside', Or.inr ⟨inside, least⟩⟩

theorem OnOutline.covered_iff (small : r ≤ 33554432) (outline : OnOutline center r p) :
    OnDisc center r p ↔ p.x = center.x ∨ |p.y - center.y| ≤ |p.x - center.x| ∨
      |p.x - center.x| * |p.x - center.x| - |p.x - center.x| + |p.y - center.y| * |p.y - center.y| < r * r := by
  obtain ⟨inside, least⟩ := outline.bounds small
  rw [onDisc_iff small]
  constructor
  · rintro ⟨-, same | less⟩
    · exact Or.inl same
    · exact Or.inr (Or.inr less)
  · rintro (same | flat | less)
    · exact ⟨inside, Or.inl same⟩
    · rcases least with disc | ⟨width, level | less⟩
      · exact (onDisc_iff small).mp disc
      · refine ⟨inside, or_iff_not_imp_left.mpr fun apart => ?_⟩
        have positive : 0 < |p.x - center.x| := abs_pos.mpr (sub_ne_zero.mpr apart)
        rw [level, sub_self, abs_zero]
        nlinarith
      · exact ⟨inside, Or.inr (by omega)⟩
    · exact ⟨inside, Or.inr less⟩

theorem OnOutline.covers_inward (small : r ≤ 33554432) (outline : OnOutline center r p) {q : Point} (column : q.x = p.x)
    (nearer : |q.y - center.y| < |p.y - center.y|) : OnDisc center r q := by
  obtain ⟨inside, least⟩ := outline.bounds small
  rw [onDisc_iff small, column]
  have side := abs_nonneg (p.x - center.x)
  have nonneg := abs_nonneg (q.y - center.y)
  refine ⟨by omega, ?_⟩
  rcases least with disc | ⟨-, level | less⟩
  · obtain ⟨-, same | less⟩ := (onDisc_iff small).mp disc
    · exact Or.inl same
    · have := mul_self_le_mul_self nonneg nearer.le
      exact Or.inr (by omega)
  · rw [level, sub_self, abs_zero] at nearer
    omega
  · have := mul_self_le_mul_self nonneg (show |q.y - center.y| ≤ |p.y - center.y| - 1 by omega)
    exact Or.inr (by nlinarith)

/-- For all centres and radii, and in every mode. -/
theorem disc_covers_outline (m : Memory) (center : Point) (r : ℤ) (c : Color) : DiscCovers m center r c := by
  constructor
  case outline =>
    intro p
    rw [m.pixel?_drawCircle]
    exact if_congr mem_pixels_circle.symm rfl rfl
  case disc =>
    intro p
    rw [m.pixel?_fillCircle]
    exact if_congr mem_pixels_disc.symm rfl rfl
  case rows =>
    intro p member inside half
    exact mem_pixels_disc.mpr ⟨(mem_pixels_circle.mp member).1, inside, half.le⟩
  case covered =>
    intro small p member
    obtain ⟨onCanvas, outline⟩ := mem_pixels_circle.mp member
    rw [mem_pixels_disc, ← outline.covered_iff small]
    exact and_iff_right onCanvas
  case inward =>
    intro small p member q onCanvas column nearer
    have outline := (mem_pixels_circle.mp member).2
    exact mem_pixels_disc.mpr ⟨onCanvas, outline.covers_inward small column nearer⟩

/-- An end of a column just inside a circle of radius two. -/
theorem disc_misses_outline :
    ¬ (Shape.circle ⟨10, 10⟩ 2).pixels .hires ⊆ (Shape.disc ⟨10, 10⟩ 2).pixels .hires ∧
    ((({} : Memory).drawCircle ⟨10, 10⟩ 2 1).fillCircle ⟨10, 10⟩ 2 2).pixel? ⟨11, 12⟩ = some 1 := by
  have outline : OnOutline ⟨10, 10⟩ 2 ⟨11, 12⟩ := Or.inr ⟨by decide, halfWidth_two.1.symm⟩
  have missed : ¬ OnDisc ⟨10, 10⟩ 2 ⟨11, 12⟩ := by
    rintro ⟨-, half⟩
    change (1 : ℤ) ≤ halfWidth 2 2 at half
    rw [halfWidth_two.2] at half
    omega
  constructor
  · intro subset
    have member := subset (mem_pixels_circle.mpr ⟨by decide, outline⟩)
    exact missed (mem_pixels_disc.mp member).2
  · rw [Memory.pixel?_fillCircle, if_neg fun reached => missed reached.2, Memory.pixel?_drawCircle]
    exact if_pos ⟨by decide, outline⟩

end RetroScript.Video
