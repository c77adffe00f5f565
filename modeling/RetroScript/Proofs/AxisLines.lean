import RetroScript.Proofs.Clipping
import RetroScript.Proofs.NearestNumber

/-!
# Lines along an axis

Where such a line is cut, the coordinate that should stay gets a term added that is zero, however far away the
ends are: `Stands.across`. So its visible part goes from one end to the other, both brought onto the canvas
(`Mode.clipLine_level`, `Mode.clipLine_upright`), and no pixel of it is missed or added: `axis_line_pixels`.
-/

namespace RetroScript.Number

open Float.Model (UnpackedFloat)
open Float.Model.UnpackedFloat
open Float.Model.Format (binary64)

/-! ### Terms that are zero -/

/-- A finite number that stands for `v`. -/
def Stands (x : Float) (v : ℚ) : Prop :=
  ∃ negative m q, read x = .finite negative m q ∧ (Reading.finite negative m q).value = v

theorem value_eq_zero_iff (negative : Bool) (m : ℕ) (q : ℤ) : (Reading.finite negative m q).value = 0 ↔ m = 0 := by
  have unit : (2 : ℚ) ^ q ≠ 0 := by positivity
  cases negative <;> simp [Reading.value, factor, unit]

section

variable {x y z : Float} {u v : ℚ}

theorem stands_zero_iff : Stands x 0 ↔ (read x).IsZero := by
  constructor
  · rintro ⟨negative, m, q, known, value⟩
    rw [known]
    exact (value_eq_zero_iff negative m q).mp value
  · intro zero
    cases known : read x with
    | nan => rw [known] at zero; exact zero.elim
    | infinite negative => rw [known] at zero; exact zero.elim
    | finite negative m q =>
      rw [known] at zero
      exact ⟨negative, m, q, known, (value_eq_zero_iff negative m q).mpr zero⟩

theorem isZero_pack_zero (s : Sign) : (read (Float.ofModel (Float.Model.pack (.zero s)))).IsZero := by
  cases s <;> rfl

theorem sub_eq_pack (x y : Float) :
    x - y = Float.ofModel (Float.Model.pack (UnpackedFloat.sub binary64 (read x).unpacked (read y).unpacked)) := by
  rw [← unpack_eq, ← unpack_eq]
  rfl

theorem add_eq_pack (x y : Float) :
    x + y = Float.ofModel (Float.Model.pack (UnpackedFloat.add binary64 (read x).unpacked (read y).unpacked)) := by
  rw [← unpack_eq, ← unpack_eq]
  rfl

theorem mul_eq_pack (x y : Float) :
    x * y = Float.ofModel (Float.Model.pack (UnpackedFloat.mul binary64 (read x).unpacked (read y).unpacked)) := by
  rw [← unpack_eq, ← unpack_eq]
  rfl

theorem div_eq_pack (x y : Float) :
    x / y = Float.ofModel (Float.Model.pack (UnpackedFloat.div binary64 (read x).unpacked (read y).unpacked)) := by
  rw [← unpack_eq, ← unpack_eq]
  rfl

theorem Stands.sub (first : Stands x v) (second : Stands y v) : Stands (x - y) 0 := by
  obtain ⟨s, m, q, known, value⟩ := first
  obtain ⟨s', m', q', known', value'⟩ := second
  rw [stands_zero_iff, sub_eq_pack, known, known']
  have both : m = 0 ↔ m' = 0 := by
    rw [← value_eq_zero_iff s m q, ← value_eq_zero_iff s' m' q', value, value']
  by_cases zero : m = 0
  · simp only [Reading.unpacked, zero, both.mp zero, dite_true]
    cases s <;> cases s' <;> exact isZero_pack_zero _
  · simp only [Reading.unpacked, zero, mt both.mpr zero, dite_false]
    rw [value_lowered s m (min_le_left q q')] at value
    rw [value_lowered s' m' (min_le_right q q'), ← value] at value'
    have same := Int.cast_injective (mul_right_cancel₀ (by positivity) value')
    change (read (Float.ofModel (Float.Model.pack (UnpackedFloat.normalize binary64
      ((signOf s).apply ((m <<< (q - min q q').toNat : ℕ) : ℤ) -
        (signOf s').apply ((m' <<< (q' - min q q').toNat : ℕ) : ℤ)) (min q q') .positive)))).IsZero
    rw [same, Int.sub_self]
    exact isZero_pack_zero _

theorem Stands.zero_mul (zero : Stands x 0) (finite : Stands y v) : Stands (x * y) 0 := by
  obtain ⟨s, m, q, known, value⟩ := zero
  obtain ⟨s', m', q', known', -⟩ := finite
  rw [stands_zero_iff, mul_eq_pack, known, known']
  simp only [Reading.unpacked, (value_eq_zero_iff s m q).mp value, dite_true]
  by_cases zero' : m' = 0
  · simp only [zero', dite_true]
    exact isZero_pack_zero _
  · simp only [zero', dite_false]
    exact isZero_pack_zero _

theorem Stands.zero_div (zero : Stands x 0) (number : read y ≠ .nan) (nonzero : ¬ (read y).IsZero) :
    Stands (x / y) 0 := by
  obtain ⟨s, m, q, known, value⟩ := zero
  rw [stands_zero_iff, div_eq_pack, known]
  simp only [Reading.unpacked, (value_eq_zero_iff s m q).mp value, dite_true]
  cases known' : read y with
  | nan => exact absurd known' number
  | infinite s' => exact isZero_pack_zero _
  | finite s' m' q' =>
    rw [known'] at nonzero
    have nonzero : m' ≠ 0 := nonzero
    simp only [nonzero, dite_false]
    exact isZero_pack_zero _

theorem Stands.add_zero (stands : Stands x v) (zero : Stands z 0) : Stands (x + z) v := by
  obtain ⟨s, m, q, known, value⟩ := stands
  obtain ⟨s', m', q', known', value'⟩ := zero
  by_cases none : m = 0
  · rw [← value, (value_eq_zero_iff s m q).mpr none, stands_zero_iff, add_eq_pack, known, known']
    simp only [Reading.unpacked, none, (value_eq_zero_iff s' m' q').mp value', dite_true]
    cases s <;> cases s' <;> exact isZero_pack_zero _
  · have proper := proper_read x
    rw [known] at proper
    have sum : UnpackedFloat.add binary64 (Reading.finite s m q).unpacked (Reading.finite s' m' q').unpacked =
        (Reading.finite s m q).unpacked := by
      simp only [Reading.unpacked, none, (value_eq_zero_iff s' m' q').mp value', dite_true, dite_false]
      rfl
    exact ⟨s, m, q, by rw [add_eq_pack, known, known', sum, read_pack proper], value⟩

theorem stands_normalize {M E : ℤ} (least : -1074 ≤ E) (small : 2 * |(M : ℚ) * 2 ^ E| < ceiling) (zero : Sign) :
    ∃ w, Stands (Float.ofModel (Float.Model.pack (UnpackedFloat.normalize binary64 M E zero))) w := by
  by_cases none : M = 0
  · refine ⟨0, stands_zero_iff.mpr ?_⟩
    rw [none]
    exact isZero_pack_zero _
  · obtain ⟨negative, m, q, rounded, result, size⟩ := normalize_rounded none least zero
    have known := read_pack_rounded rounded negative
    rw [abs_mul, abs_of_pos (show (0 : ℚ) < 2 ^ E by positivity), ← Int.cast_abs, Int.abs_eq_natAbs,
      Int.cast_natCast] at small
    rw [if_pos (rounded.exponent_le (lt_of_le_of_lt size small)), ← result] at known
    exact ⟨_, negative, m, q, known, rfl⟩

theorem stands_pack (negative : Bool) {m : ℕ} {q : ℤ} (proper : (Reading.finite negative m q).Proper) :
    ∃ w, Stands (Float.ofModel (Float.Model.pack (Reading.finite negative m q).unpacked)) w :=
  ⟨_, negative, m, q, read_pack proper, rfl⟩

/-- Only overflow takes a difference out of the finite numbers. -/
theorem Stands.sub_finite (first : Stands x u) (second : Stands y v) (small : 2 * |u - v| < ceiling) :
    ∃ w, Stands (x - y) w := by
  obtain ⟨s, m, q, known, rfl⟩ := first
  obtain ⟨s', m', q', known', rfl⟩ := second
  have proper := proper_read x
  have proper' := proper_read y
  rw [known] at proper
  rw [known'] at proper'
  rw [sub_eq_pack, known, known']
  by_cases none : m = 0
  · by_cases none' : m' = 0
    · simp only [Reading.unpacked, none, none', dite_true]
      cases s <;> cases s' <;> exact ⟨0, stands_zero_iff.mpr (isZero_pack_zero _)⟩
    · have negated := stands_pack (!s') proper'
      simp only [Reading.unpacked, none, none', dite_true, dite_false] at negated ⊢
      cases s' <;> exact negated
  · by_cases none' : m' = 0
    · have same := stands_pack s proper
      simp only [Reading.unpacked, none, none', dite_true, dite_false] at same ⊢
      exact same
    · rw [value_lowered s m (min_le_left q q'), value_lowered s' m' (min_le_right q q'), ← sub_mul,
        ← Int.cast_sub] at small
      simp only [Reading.unpacked, none, none', dite_false]
      exact stands_normalize (le_min proper.least proper'.least) small .positive

end

/-! ### Integers -/

theorem stands_ofInt {n : ℤ} (small : n.natAbs < 9007199254740992) : Stands (Float.ofInt n) n := by
  obtain ⟨m, q, known, value⟩ := read_ofInt_small small
  refine ⟨_, m, q, known, ?_⟩
  rw [Reading.value, value]
  unfold factor
  by_cases negative : n < 0
  · rw [decide_eq_true negative, if_pos rfl, ← Int.cast_natCast, show (n.natAbs : ℤ) = -n by omega]
    push_cast
    ring
  · rw [decide_eq_false negative, if_neg (by decide), ← Int.cast_natCast, show (n.natAbs : ℤ) = n by omega, one_mul]

/-- A finite number that is far from overflow. -/
def Tame (x : Float) : Prop := ∃ v, Stands x v ∧ |v| ≤ 18446744073709551616

theorem tame_lt_ceiling : (73786976294838206464 : ℚ) < ceiling := by
  calc (73786976294838206464 : ℚ) = 2 ^ (66 : ℤ) := by norm_num
    _ < ceiling := zpow_lt_zpow_right₀ (by norm_num) (by norm_num)

theorem tame_ofInt {n : ℤ} (word : n.natAbs ≤ 9223372036854775808) : Tame (Float.ofInt n) := by
  have large := tame_lt_ceiling
  have size : ((n.natAbs : ℕ) : ℚ) ≤ 9223372036854775808 := by exact_mod_cast word
  obtain ⟨m, q, known, near, -⟩ := read_ofNat_near (n := n.natAbs) (by linarith)
  have upper := (abs_le.mp near).2
  have bound : (m : ℚ) * 2 ^ q ≤ 18446744073709551616 := by linarith
  have nonneg := magnitude_nonneg m q
  cases n with
  | ofNat k =>
    refine ⟨_, ⟨false, m, q, known, rfl⟩, ?_⟩
    simpa [Reading.value, factor, abs_of_nonneg nonneg] using bound
  | negSucc k =>
    have negated : read (Float.ofInt (.negSucc k)) = (read (Float.ofNat (k + 1))).negate := read_neg _
    refine ⟨_, ⟨true, m, q, negated.trans (congrArg Reading.negate known), rfl⟩, ?_⟩
    simpa [Reading.value, factor, abs_of_nonneg nonneg] using bound

theorem Tame.sub {x y : Float} (first : Tame x) (second : Tame y) : ∃ w, Stands (x - y) w := by
  obtain ⟨u, stands, small⟩ := first
  obtain ⟨v, stands', small'⟩ := second
  have large := tame_lt_ceiling
  have difference : |u - v| ≤ |u| + |v| := abs_sub u v
  exact stands.sub_finite stands' (by linarith)

theorem round_of_stands {x : Float} {n : ℤ} (stands : Stands x n) (small : n.natAbs < 9007199254740992) : round x = n := by
  obtain ⟨negative, m, q, known, value⟩ := stands
  obtain ⟨size, sign⟩ := value_integer value
  unfold round toWord
  rw [known]
  dsimp only
  rw [nearestPart_eq size, sign]
  unfold clampWord minWord maxWord
  omega

/-- What a cut makes of a coordinate that both ends of a line share: `base` and `far` are the other coordinates,
and one of them moves to `edge`. -/
theorem Stands.across {p q base far edge : Float} {v : ℚ} (first : Stands p v) (second : Stands q v) (tame : Tame base)
    (tame' : Tame far) (onEdge : Tame edge) (apart : (far - base == 0) = false) :
    Stands (p + (q - p) * (edge - base) / (far - base)) v := by
  obtain ⟨_, finite⟩ := onEdge.sub tame
  obtain ⟨_, _, _, _, known, _⟩ := tame'.sub tame
  have number : read (far - base) ≠ .nan := by simp [known]
  have nonzero : ¬ (read (far - base)).IsZero := by
    intro zero
    have equal : (far - base == 0) = true := (beq_iff _ _).mpr ⟨number, Or.inr ⟨zero, rfl⟩⟩
    rw [apart] at equal
    cases equal
  exact first.add_zero (((second.sub first).zero_mul finite).zero_div number nonzero)

end RetroScript.Number

namespace RetroScript.Video

open Number (Stands Tame)

/-! ### Spots on points -/

structure Spot.At (s : Spot) (p : Point) : Prop where
  x : Stands s.x p.x
  y : Stands s.y p.y

section

variable {m : Mode} {s : Spot} {p : Point}

theorem Mode.spot_at (onCanvas : m.OnCanvas p) : p.spot.At p := by
  have columns := m.columns_le
  have rows : height = 200 := rfl
  unfold OnCanvas at onCanvas
  exact ⟨Number.stands_ofInt (by omega), Number.stands_ofInt (by omega)⟩

theorem lt_congr {x y : Float} {v : ℚ} (first : Stands x v) (second : Stands y v) (c : Float) :
    (x < c ↔ y < c) ∧ (c < x ↔ c < y) := by
  obtain ⟨_, _, _, known, value⟩ := first
  obtain ⟨_, _, _, known', value'⟩ := second
  simp [Number.lt_iff, known, known', value, value']

theorem Spot.At.isInside (at' : s.At p) (onCanvas : m.OnCanvas p) : (m.bounds.sides s).isInside = true := by
  have same := m.spot_at onCanvas
  have sides : m.bounds.sides s = m.bounds.sides p.spot := by
    simp only [Bounds.sides, lt_congr at'.x same.x, lt_congr at'.y same.y]
  rw [sides, m.isInside_spot]
  exact onCanvas

theorem Spot.At.snap (at' : s.At p) (onCanvas : m.OnCanvas p) : m.snap s = p := by
  have columns := m.columns_le
  have rows : height = 200 := rfl
  unfold Mode.OnCanvas at onCanvas
  unfold Mode.snap
  rw [Number.round_of_stands at'.x (by omega), Number.round_of_stands at'.y (by omega)]
  obtain ⟨x, y⟩ := p
  rw [Point.mk.injEq]
  dsimp only at onCanvas ⊢
  omega

end

/-! ### Two cuts -/

namespace Bounds

variable {b : Bounds} {p q : Spot}

theorem clip_of_inside (first : (b.sides p).isInside = true) (second : (b.sides q).isInside = true) (n : Nat) :
    b.clip n p q = some (p, q) := by
  cases n with
  | zero => rfl
  | succ n => rw [clip, first, second]; rfl

/-- If each end is on the canvas after at most one cut, these are the ends that are left. -/
theorem clip_of_cuts (apart : (b.sides p).share (b.sides q) = false) {p' q' : Spot}
    (first : p' = if (b.sides p).isInside then p else b.cut (b.sides p) p q) (inside : (b.sides p').isInside = true)
    (second : q' = if (b.sides q).isInside then q else b.cut (b.sides q) p' q) (inside' : (b.sides q').isInside = true)
    (n : Nat) : b.clip (n + 2) p q = some (p', q') := by
  have later : ∀ n, b.clip (n + 1) p' q = some (p', q') := by
    intro n
    rw [clip, inside, (Sides.share_of_isInside inside).1]
    cases inside'' : (b.sides q).isInside with
    | true =>
      rw [inside'', if_pos rfl] at second
      rw [second]
      rfl
    | false =>
      rw [inside'', if_neg (by decide)] at second
      rw [second] at inside' ⊢
      exact clip_of_inside inside inside' n
  cases outside : (b.sides p).isInside with
  | true =>
    rw [outside, if_pos rfl] at first
    rw [← first]
    exact later (n + 1)
  | false =>
    rw [outside, if_neg (by decide)] at first
    rw [clip, outside, apart, ← first]
    exact later n

end Bounds

/-! ### The visible part -/

/-- The point of the canvas next to a point. -/
def Mode.clamp (m : Mode) (p : Point) : Point where
  x := max 0 (min p.x (m.columns - 1))
  y := max 0 (min p.y (height - 1))

section

variable {m : Mode} {a b : Point}

theorem Mode.onCanvas_clamp (m : Mode) (p : Point) : m.OnCanvas (m.clamp p) := by
  have columns := m.columns_le
  have rows : height = 200 := rfl
  unfold OnCanvas clamp
  dsimp only
  omega

theorem Mode.clamp_of_onCanvas {p : Point} (onCanvas : m.OnCanvas p) : m.clamp p = p := by
  obtain ⟨x, y⟩ := p
  unfold OnCanvas at onCanvas
  unfold clamp
  rw [Point.mk.injEq]
  dsimp only at onCanvas ⊢
  omega

theorem Mode.share_spot (m : Mode) (a b : Point) :
    (m.bounds.sides a.spot).share (m.bounds.sides b.spot) = true ↔ m.Beyond a b := by
  rw [sides_spot, sides_spot]
  simp only [Sides.share, Beyond, Bool.or_eq_true, Bool.and_eq_true, decide_eq_true_eq]
  omega

/-- If a cut brings an end where it should be, whatever spot stands for the other end, the line is cut so. -/
theorem Mode.clipLine_of_cuts (apart : ¬ m.Beyond a b)
    (first : ¬ m.OnCanvas a → (m.bounds.cut (m.bounds.sides a.spot) a.spot b.spot).At (m.clamp a))
    (second : ¬ m.OnCanvas b → ∀ p : Spot, p.At (m.clamp a) →
      (m.bounds.cut (m.bounds.sides b.spot) p b.spot).At (m.clamp b)) :
    m.clipLine a b = some (m.clamp a, m.clamp b) := by
  by_cases both : m.OnCanvas a ∧ m.OnCanvas b
  · rw [clipLine, if_pos both, clamp_of_onCanvas both.1, clamp_of_onCanvas both.2]
  have shown : ∀ p : Point, ∀ cut : Spot, (¬ m.OnCanvas p → cut.At (m.clamp p)) →
      (if (m.bounds.sides p.spot).isInside then p.spot else cut).At (m.clamp p) := by
    intro p cut outside
    by_cases onCanvas : m.OnCanvas p
    · rw [if_pos ((m.isInside_spot p).mpr onCanvas), clamp_of_onCanvas onCanvas]
      exact m.spot_at onCanvas
    · rw [if_neg (mt (m.isInside_spot p).mp onCanvas)]
      exact outside onCanvas
  have atFirst := shown a _ first
  have atSecond := shown b _ fun off => second off _ atFirst
  have onFirst := m.onCanvas_clamp a
  have onSecond := m.onCanvas_clamp b
  have separate := Bool.eq_false_iff.mpr (mt (m.share_spot a b).mp apart)
  rw [clipLine_eq both, Bounds.clip_of_cuts separate rfl (atFirst.isInside onFirst) rfl (atSecond.isInside onSecond) 6,
    Option.map_some, atFirst.snap onFirst, atSecond.snap onSecond]

/-- The larger edges of the canvas, and the smaller ones. -/
theorem Mode.stands_edges (m : Mode) :
    Stands m.bounds.x ((m.columns - 1 : ℤ) : ℚ) ∧ Stands m.bounds.y ((height - 1 : ℤ) : ℚ) ∧ Stands 0 ((0 : ℤ) : ℚ) := by
  have columns := m.columns_le
  have cast : ((m.columns - 1 : Nat) : ℤ) = m.columns - 1 := by omega
  refine ⟨?_, Number.stands_ofInt (n := 199) (by decide), Number.stands_ofInt (n := 0) (by decide)⟩
  rw [← cast]
  exact Number.stands_ofInt (n := (m.columns - 1 : Nat)) (by omega)

theorem tame_of_small {x : Float} {n : ℤ} (stands : Stands x n) (small : n.natAbs ≤ 1000) : Tame x := by
  refine ⟨n, stands, ?_⟩
  have : |n| ≤ 1000 := abs_le.mpr (by omega)
  rw [← Int.cast_abs]
  exact le_trans (Int.cast_le.mpr this) (by norm_num)

/-- A cut of a horizontal line. The end `e` that is moved is one of the two that `p` and `q` stand for. -/
theorem Mode.cut_level {p q : Spot} {e : Point} (inside : 0 ≤ e.y ∧ e.y < height) (off : ¬ m.OnCanvas e)
    (level : Stands p.y e.y) (level' : Stands q.y e.y) (tame : Tame p.x) (tame' : Tame q.x)
    (apart : (q.x - p.x == 0) = false) : (m.bounds.cut (m.bounds.sides e.spot) p q).At (m.clamp e) := by
  obtain ⟨wide, -, zero⟩ := m.stands_edges
  have columns := m.columns_le
  have row : max 0 (min e.y (height - 1)) = e.y := by omega
  unfold OnCanvas at off
  unfold Bounds.cut clamp
  rw [sides_spot, row]
  dsimp only
  rw [if_neg (by simpa using inside.2), if_neg (by simpa using inside.1)]
  by_cases right : (m.columns : ℤ) ≤ e.x
  · have column : max 0 (min e.x (m.columns - 1)) = m.columns - 1 := by omega
    rw [if_pos (by simpa using right), column]
    exact ⟨wide, level.across level' tame tame' (tame_of_small wide (by omega)) apart⟩
  · have column : max 0 (min e.x (m.columns - 1)) = 0 := by omega
    rw [if_neg (by simpa using right), column]
    exact ⟨zero, level.across level' tame tame' (tame_of_small zero (by decide)) apart⟩

theorem Mode.cut_upright {p q : Spot} {e : Point} (inside : 0 ≤ e.x ∧ e.x < m.columns) (off : ¬ m.OnCanvas e)
    (upright : Stands p.x e.x) (upright' : Stands q.x e.x) (tame : Tame p.y) (tame' : Tame q.y)
    (apart : (q.y - p.y == 0) = false) : (m.bounds.cut (m.bounds.sides e.spot) p q).At (m.clamp e) := by
  obtain ⟨-, tall, zero⟩ := m.stands_edges
  have rows : height = 200 := rfl
  have column : max 0 (min e.x (m.columns - 1)) = e.x := by omega
  unfold OnCanvas at off
  unfold Bounds.cut clamp
  rw [sides_spot, column]
  dsimp only
  by_cases high : (height : ℤ) ≤ e.y
  · have row : max 0 (min e.y (height - 1)) = height - 1 := by omega
    rw [if_pos (by simpa using high), row]
    exact ⟨upright.across upright' tame tame' (tame_of_small tall (by decide)) apart, tall⟩
  · have row : max 0 (min e.y (height - 1)) = 0 := by omega
    have low : e.y < 0 := by omega
    rw [if_neg (by simpa using high), if_pos (by simpa using low), row]
    exact ⟨upright.across upright' tame tame' (tame_of_small zero (by decide)) apart, zero⟩

theorem Bounds.dx_nonzero {b : Bounds} {p q : Spot}
    (differ : (b.sides p).left ≠ (b.sides q).left ∨ (b.sides p).right ≠ (b.sides q).right) :
    (q.x - p.x == 0) = false := by
  rw [Bool.eq_false_iff]
  intro zero
  obtain ⟨left, right⟩ := sides_of_dx (b := b) zero
  exact differ.elim (· left) (· right)

theorem Bounds.dy_nonzero {b : Bounds} {p q : Spot}
    (differ : (b.sides p).low ≠ (b.sides q).low ∨ (b.sides p).high ≠ (b.sides q).high) :
    (q.y - p.y == 0) = false := by
  rw [Bool.eq_false_iff]
  intro zero
  obtain ⟨low, high⟩ := sides_of_dy (b := b) zero
  exact differ.elim (· low) (· high)

theorem Mode.clipLine_level {u v y : ℤ} (word : Number.IsWord u) (word' : Number.IsWord v)
    (inside : 0 ≤ y ∧ y < height) (apart : ¬ m.Beyond ⟨u, y⟩ ⟨v, y⟩) :
    m.clipLine ⟨u, y⟩ ⟨v, y⟩ = some (m.clamp ⟨u, y⟩, m.clamp ⟨v, y⟩) := by
  have columns := m.columns_le
  have rows : height = 200 := rfl
  have row : Stands (Float.ofInt y) y := Number.stands_ofInt (by omega)
  apply clipLine_of_cuts apart
  · intro off
    apply cut_level (p := Point.spot ⟨u, y⟩) (q := Point.spot ⟨v, y⟩) inside off row row
      (Number.tame_ofInt word.natAbs_le) (Number.tame_ofInt word'.natAbs_le)
    apply Bounds.dx_nonzero (b := m.bounds)
    rw [sides_spot, sides_spot]
    simp only [ne_eq, decide_eq_decide]
    unfold Beyond at apart
    unfold OnCanvas at off
    dsimp only at apart off
    omega
  · intro off p at'
    have stays : (m.clamp ⟨u, y⟩).y = y := by
      unfold clamp
      dsimp only
      omega
    have onFirst := m.onCanvas_clamp ⟨u, y⟩
    have left := at'.isInside onFirst
    have level := at'.y
    rw [stays] at level
    apply cut_level (p := p) (q := Point.spot ⟨v, y⟩) inside off level row (tame_of_small at'.x _)
      (Number.tame_ofInt word'.natAbs_le)
    · apply Bounds.dx_nonzero (b := m.bounds)
      simp only [Sides.isInside, Bool.not_eq_true', Bool.or_eq_false_iff] at left
      rw [left.1.1.1, left.1.1.2, sides_spot]
      unfold OnCanvas at off
      dsimp only at off ⊢
      simp only [ne_eq, Bool.false_eq, decide_eq_false_iff_not]
      omega
    · unfold OnCanvas at onFirst
      omega

theorem Mode.clipLine_upright {u v x : ℤ} (word : Number.IsWord u) (word' : Number.IsWord v)
    (inside : 0 ≤ x ∧ x < m.columns) (apart : ¬ m.Beyond ⟨x, u⟩ ⟨x, v⟩) :
    m.clipLine ⟨x, u⟩ ⟨x, v⟩ = some (m.clamp ⟨x, u⟩, m.clamp ⟨x, v⟩) := by
  have columns := m.columns_le
  have rows : height = 200 := rfl
  have column : Stands (Float.ofInt x) x := Number.stands_ofInt (by omega)
  apply clipLine_of_cuts apart
  · intro off
    apply cut_upright (p := Point.spot ⟨x, u⟩) (q := Point.spot ⟨x, v⟩) inside off column column
      (Number.tame_ofInt word.natAbs_le) (Number.tame_ofInt word'.natAbs_le)
    apply Bounds.dy_nonzero (b := m.bounds)
    rw [sides_spot, sides_spot]
    simp only [ne_eq, decide_eq_decide]
    unfold Beyond at apart
    unfold OnCanvas at off
    dsimp only at apart off
    omega
  · intro off p at'
    have stays : (m.clamp ⟨x, u⟩).x = x := by
      unfold clamp
      dsimp only
      omega
    have onFirst := m.onCanvas_clamp ⟨x, u⟩
    have upright := at'.x
    rw [stays] at upright
    apply cut_upright (p := p) (q := Point.spot ⟨x, v⟩) inside off upright column (tame_of_small at'.y _)
      (Number.tame_ofInt word'.natAbs_le)
    · apply Bounds.dy_nonzero (b := m.bounds)
      have left := at'.isInside onFirst
      simp only [Sides.isInside, Bool.not_eq_true', Bool.or_eq_false_iff] at left
      rw [left.1.2, left.2, sides_spot]
      unfold OnCanvas at off
      dsimp only at off ⊢
      simp only [ne_eq, Bool.false_eq, decide_eq_false_iff_not]
      omega
    · unfold OnCanvas at onFirst
      omega

end

/-! ### Pixels in a row or a column -/

theorem movesIn_longest {total n : Nat} (inside : n ≤ total) : movesIn total total n = n := by
  rcases Nat.eq_zero_or_pos total with rfl | pos
  · rw [Nat.le_zero.mp inside, movesIn_zero]
  · exact movesIn_self pos n

theorem movesIn_none {total n : Nat} (inside : n ≤ total) : movesIn 0 total n = 0 :=
  Nat.le_zero.mp (movesIn_le 0 inside)

theorem exists_sign_mul_iff {p q r : ℤ} :
    (∃ n ≤ (q - p).natAbs, p + (if p < q then 1 else -1 : ℤ) * n = r) ↔ min p q ≤ r ∧ r ≤ max p q := by
  constructor
  · rintro ⟨n, le, rfl⟩
    exact between_of_le le
  · rintro ⟨low, high⟩
    refine ⟨(r - p).natAbs, by omega, ?_⟩
    split <;> omega

theorem mem_segment_coordinates {a b p : Point} :
    p ∈ segment a b ↔ ∃ n ≤ lineSteps a b,
      a.x + (if a.x < b.x then 1 else -1 : ℤ) * movesIn (xExtent a b) (lineSteps a b) n = p.x ∧
        a.y + (if a.y < b.y then 1 else -1 : ℤ) * movesIn (yExtent a b) (lineSteps a b) n = p.y := by
  obtain ⟨x, y⟩ := p
  simp only [mem_segment, linePixel, linePen, Slope.penAt, Slope.between, Point.mk.injEq]

section

variable {u v w : ℤ} {p : Point}

theorem mem_segment_level : p ∈ segment ⟨u, w⟩ ⟨v, w⟩ ↔ p.y = w ∧ min u v ≤ p.x ∧ p.x ≤ max u v := by
  have wide : xExtent ⟨u, w⟩ ⟨v, w⟩ = (v - u).natAbs := rfl
  have tall : yExtent ⟨u, w⟩ ⟨v, w⟩ = 0 := by simp [yExtent]
  have steps : lineSteps ⟨u, w⟩ ⟨v, w⟩ = (v - u).natAbs := by rw [lineSteps, wide, tall, Nat.max_zero]
  rw [mem_segment_coordinates, wide, tall, steps, ← exists_sign_mul_iff]
  constructor
  · rintro ⟨n, inside, x, y⟩
    rw [movesIn_longest inside] at x
    rw [movesIn_none inside, Nat.cast_zero, mul_zero, add_zero] at y
    exact ⟨y.symm, n, inside, x⟩
  · rintro ⟨row, n, inside, x⟩
    refine ⟨n, inside, ?_, ?_⟩
    · rw [movesIn_longest inside]
      exact x
    · rw [movesIn_none inside, Nat.cast_zero, mul_zero, add_zero]
      exact row.symm

theorem mem_segment_upright : p ∈ segment ⟨w, u⟩ ⟨w, v⟩ ↔ p.x = w ∧ min u v ≤ p.y ∧ p.y ≤ max u v := by
  have wide : xExtent ⟨w, u⟩ ⟨w, v⟩ = 0 := by simp [xExtent]
  have tall : yExtent ⟨w, u⟩ ⟨w, v⟩ = (v - u).natAbs := rfl
  have steps : lineSteps ⟨w, u⟩ ⟨w, v⟩ = (v - u).natAbs := by rw [lineSteps, wide, tall, Nat.zero_max]
  rw [mem_segment_coordinates, wide, tall, steps, ← exists_sign_mul_iff]
  constructor
  · rintro ⟨n, inside, x, y⟩
    rw [movesIn_longest inside] at y
    rw [movesIn_none inside, Nat.cast_zero, mul_zero, add_zero] at x
    exact ⟨x.symm, n, inside, y⟩
  · rintro ⟨column, n, inside, y⟩
    refine ⟨n, inside, ?_, ?_⟩
    · rw [movesIn_none inside, Nat.cast_zero, mul_zero, add_zero]
      exact column.symm
    · rw [movesIn_longest inside]
      exact y

/-! ### Drawing -/

theorem Mode.linePoints_of_beyond {m : Mode} {a b : Point} (beyond : m.Beyond a b) : m.linePoints a b = [] := by
  rw [linePoints, clipLine_beyond beyond]

theorem Mode.mem_linePoints_level (m : Mode) (word : Number.IsWord u) (word' : Number.IsWord v) :
    p ∈ m.linePoints ⟨u, w⟩ ⟨v, w⟩ ↔ m.OnCanvas p ∧ p.y = w ∧ min u v ≤ p.x ∧ p.x ≤ max u v := by
  by_cases beyond : m.Beyond ⟨u, w⟩ ⟨v, w⟩
  · simp only [linePoints_of_beyond beyond, List.not_mem_nil, false_iff]
    unfold Beyond at beyond
    unfold OnCanvas
    dsimp only at beyond
    omega
  · have inside : 0 ≤ w ∧ w < height := by
      unfold Beyond at beyond
      dsimp only at beyond
      omega
    have stays : max 0 (min w (height - 1)) = w := by omega
    have columns := m.columns_le
    rw [linePoints_of_clipLine (clipLine_level word word' inside beyond), clamp, clamp, stays, mem_segment_level]
    unfold Beyond at beyond
    unfold OnCanvas
    dsimp only at beyond ⊢
    omega

theorem Mode.mem_linePoints_upright (m : Mode) (word : Number.IsWord u) (word' : Number.IsWord v) :
    p ∈ m.linePoints ⟨w, u⟩ ⟨w, v⟩ ↔ m.OnCanvas p ∧ p.x = w ∧ min u v ≤ p.y ∧ p.y ≤ max u v := by
  by_cases beyond : m.Beyond ⟨w, u⟩ ⟨w, v⟩
  · simp only [linePoints_of_beyond beyond, List.not_mem_nil, false_iff]
    unfold Beyond at beyond
    unfold OnCanvas
    dsimp only at beyond
    omega
  · have inside : 0 ≤ w ∧ w < m.columns := by
      unfold Beyond at beyond
      dsimp only at beyond
      omega
    have stays : max 0 (min w (m.columns - 1)) = w := by omega
    have rows : height = 200 := rfl
    rw [linePoints_of_clipLine (clipLine_upright word word' inside beyond), clamp, clamp, stays, mem_segment_upright]
    unfold Beyond at beyond
    unfold OnCanvas
    dsimp only at beyond ⊢
    omega

/-- From end to end, in either order, and nothing if the row or the column is off the canvas. -/
theorem axis_line_pixels (m : Memory) (c : Color) (word : Number.IsWord u) (word' : Number.IsWord v) :
    (∀ p, (m.drawLine ⟨u, w⟩ ⟨v, w⟩ c).pixel? p =
      if m.mode.OnCanvas p ∧ p.y = w ∧ min u v ≤ p.x ∧ p.x ≤ max u v then some c else m.pixel? p) ∧
    (∀ p, (m.drawLine ⟨w, u⟩ ⟨w, v⟩ c).pixel? p =
      if m.mode.OnCanvas p ∧ p.x = w ∧ min u v ≤ p.y ∧ p.y ≤ max u v then some c else m.pixel? p) ∧
    (w < 0 ∨ height ≤ w → m.drawLine ⟨u, w⟩ ⟨v, w⟩ c = m) ∧
    (w < 0 ∨ m.mode.columns ≤ w → m.drawLine ⟨w, u⟩ ⟨w, v⟩ c = m) := by
  refine ⟨?_, ?_, ?_, ?_⟩
  · intro p
    rw [Memory.drawLine, Memory.pixel?_paint]
    apply if_congr _ rfl rfl
    rw [Mode.mem_linePoints_level _ word word', and_iff_left_iff_imp]
    exact And.left
  · intro p
    rw [Memory.drawLine, Memory.pixel?_paint]
    apply if_congr _ rfl rfl
    rw [Mode.mem_linePoints_upright _ word word', and_iff_left_iff_imp]
    exact And.left
  · intro off
    have beyond : m.mode.Beyond ⟨u, w⟩ ⟨v, w⟩ := by
      unfold Mode.Beyond
      dsimp only
      omega
    rw [Memory.drawLine, Mode.linePoints_of_beyond beyond]
    rfl
  · intro off
    have beyond : m.mode.Beyond ⟨w, u⟩ ⟨w, v⟩ := by
      unfold Mode.Beyond
      dsimp only
      omega
    rw [Memory.drawLine, Mode.linePoints_of_beyond beyond]
    rfl

/-- The ends of the range on both sides, from right to left. -/
theorem axis_line_pixels_longest :
    (({} : Memory).drawLine ⟨Number.maxWord, 5⟩ ⟨Number.minWord, 5⟩ 7).pixel? ⟨319, 5⟩ = some 7 ∧
    (({} : Memory).drawLine ⟨Number.maxWord, 5⟩ ⟨Number.minWord, 5⟩ 7).pixel? ⟨319, 6⟩ = some background := by
  obtain ⟨level, -⟩ := axis_line_pixels (u := Number.maxWord) (v := Number.minWord) (w := 5) {} 7
    ⟨by decide, by decide⟩ ⟨by decide, by decide⟩
  constructor
  · rw [level, if_pos (by decide)]
  · rw [level, if_neg (by decide), Memory.pixel?_eq _ (by decide)]
    exact congrArg some (Vector.getElem_replicate _)

end

end RetroScript.Video
