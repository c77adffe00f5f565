import RetroScript.Proofs.Rounding

/-!
# Numbers as rationals

What a number stands for, and what comparing, subtracting and taking integer parts come to in these terms:
`lt_iff`, `sub_isZero`, `truncate_eq`. Integers up to fifty-three bits are numbers, and larger ones stay
larger when they are rounded.
-/

namespace RetroScript.Number

open Float.Model (UnpackedFloat)
open Float.Model.UnpackedFloat
open Float.Model.Format (binary64)

/-- A sign as a factor. -/
def factor (negative : Bool) : ℚ := if negative then -1 else 1

/-- The first power of two above all finite numbers. -/
def ceiling : ℚ := 2 ^ (1024 : ℤ)

theorem ceiling_pos : 0 < ceiling := by
  unfold ceiling
  positivity

/-- What a number stands for. The infinite ones stand just above and below all others. -/
def Reading.value : Reading → ℚ
  | .nan => 0
  | .infinite negative => factor negative * ceiling
  | .finite negative m q => factor negative * (m * 2 ^ q)

theorem magnitude_nonneg (m : ℕ) (q : ℤ) : (0 : ℚ) ≤ m * 2 ^ q := by positivity

theorem magnitude_pos {m : ℕ} (nonzero : m ≠ 0) (q : ℤ) : (0 : ℚ) < m * 2 ^ q := by
  have : 0 < m := Nat.pos_of_ne_zero nonzero
  positivity

/-! ### Order -/

section

variable {m m' : ℕ} {q q' : ℤ} (canonical : Canonical m q) (canonical' : Canonical m' q')

include canonical

theorem Canonical.lt_ceiling : (m : ℚ) * 2 ^ q < ceiling := (rounds_self m q).lt_top canonical

include canonical'

/-- With a larger exponent a number is larger, since it has fifty-three bits then. -/
theorem Canonical.lt_of_exponent (less : q < q') : (m : ℚ) * 2 ^ q < m' * 2 ^ q' := by
  have normal : 4503599627370496 ≤ m' := by
    have := canonical.least
    have := canonical'.full
    omega
  calc (m : ℚ) * 2 ^ q < 9007199254740992 * 2 ^ q := by
        have : (m : ℚ) < 9007199254740992 := by exact_mod_cast canonical.small
        gcongr
    _ = 4503599627370496 * 2 ^ (q + 1) := by
        rw [zpow_add₀ (by norm_num), zpow_one]
        ring
    _ ≤ 4503599627370496 * 2 ^ q' := by
        have : (2 : ℚ) ^ (q + 1) ≤ 2 ^ q' := zpow_le_zpow_right₀ (by norm_num) (by omega)
        gcongr
    _ ≤ m' * 2 ^ q' := by
        have : (4503599627370496 : ℚ) ≤ m' := by exact_mod_cast normal
        gcongr

theorem Canonical.lt_iff : (m : ℚ) * 2 ^ q < m' * 2 ^ q' ↔ q < q' ∨ q = q' ∧ m < m' := by
  rcases lt_trichotomy q q' with less | rfl | more
  · simp [less, canonical.lt_of_exponent canonical' less]
  · have unit : (0 : ℚ) < 2 ^ q := by positivity
    simp [mul_lt_mul_iff_left₀ unit]
  · have := canonical'.lt_of_exponent canonical more
    constructor
    · intro less
      linarith
    · omega

theorem Canonical.compare_eq_lt :
    (compare q q').then (compare m m') = .lt ↔ (m : ℚ) * 2 ^ q < m' * 2 ^ q' := by
  rw [canonical.lt_iff canonical', Ordering.then_eq_lt, Int.compare_eq_lt, Int.compare_eq_eq, Nat.compare_eq_lt]

theorem Canonical.compare_eq_gt :
    (compare q q').then (compare m m') = .gt ↔ (m' : ℚ) * 2 ^ q' < m * 2 ^ q := by
  rw [canonical'.lt_iff canonical, Ordering.then_eq_gt, Int.compare_eq_gt, Int.compare_eq_eq, Nat.compare_eq_gt]
  omega

end

theorem lt_unpacked {r r' : Reading} (proper : r.Proper) (proper' : r'.Proper) :
    r.unpacked.lt r'.unpacked = true ↔ r ≠ .nan ∧ r' ≠ .nan ∧ r.value < r'.value := by
  have top := ceiling_pos
  cases r with
  | nan => simp [Reading.unpacked, UnpackedFloat.lt, UnpackedFloat.compare]
  | infinite s =>
    cases r' with
    | nan => cases s <;> simp [Reading.unpacked, UnpackedFloat.lt, UnpackedFloat.compare, signOf]
    | infinite s' =>
      have order : compare Sign.negative Sign.positive = .lt := rfl
      cases s <;> cases s' <;>
        simp [Reading.unpacked, UnpackedFloat.lt, UnpackedFloat.compare, signOf, Reading.value, factor, order, top,
          top.le]
    | finite s' m' q' =>
      have below := Canonical.lt_ceiling proper'
      have size := magnitude_nonneg m' q'
      by_cases zero : m' = 0 <;> cases s <;> cases s' <;>
        simp [Reading.unpacked, UnpackedFloat.lt, UnpackedFloat.compare, signOf, zero, Reading.value, factor] <;>
        linarith
  | finite s m q =>
    cases r' with
    | nan =>
      by_cases zero : m = 0 <;> cases s <;>
        simp [Reading.unpacked, UnpackedFloat.lt, UnpackedFloat.compare, signOf, zero]
    | infinite s' =>
      have below := Canonical.lt_ceiling proper
      have size := magnitude_nonneg m q
      by_cases zero : m = 0 <;> cases s <;> cases s' <;>
        simp [Reading.unpacked, UnpackedFloat.lt, UnpackedFloat.compare, signOf, zero, Reading.value, factor] <;>
        linarith
    | finite s' m' q' =>
      have less := Canonical.compare_eq_lt proper proper'
      have greater := Canonical.compare_eq_gt proper proper'
      -- Zeros are told apart before exponents and mantissas are compared.
      by_cases zero : m = 0 <;> by_cases zero' : m' = 0 <;> cases s <;> cases s' <;>
        simp [Reading.unpacked, UnpackedFloat.lt, UnpackedFloat.compare, signOf, zero, zero', Reading.value, factor,
          less, greater, magnitude_nonneg, magnitude_pos]
      · have := magnitude_nonneg m q
        have := magnitude_nonneg m' q'
        linarith
      · have := magnitude_pos zero q
        have := magnitude_nonneg m' q'
        linarith

theorem lt_iff (x y : Float) :
    x < y ↔ read x ≠ .nan ∧ read y ≠ .nan ∧ (read x).value < (read y).value := by
  have same : x < y ↔ (read x).unpacked.lt (read y).unpacked = true := by
    rw [← unpack_eq, ← unpack_eq]
    change Float.lt x y = true ↔ _
    unfold Float.lt
    rw [decide_eq_true_iff]
    rfl
  rw [same, lt_unpacked (proper_read x) (proper_read y)]

/-! ### Rounding keeps a number's size -/

theorem mantissa_shiftRight (em : ExtendedMantissa) (k : ℕ) : (em >>> k).mantissa = em.mantissa / 2 ^ k := by
  change (k.repeat ExtendedMantissa.shiftRightOne em).mantissa = _
  induction k with
  | zero => simp [Nat.repeat]
  | succ k ih =>
    change (k.repeat ExtendedMantissa.shiftRightOne em).mantissa / 2 = _
    rw [ih, Nat.div_div_eq_div_mul, Nat.pow_succ]

theorem roundedMantissa_bounds (em : ExtendedMantissa) :
    em.mantissa ≤ em.roundedMantissa ∧ em.roundedMantissa ≤ em.mantissa + 1 := by
  unfold ExtendedMantissa.roundedMantissa Accuracy.roundToNearestEven
  split <;> omega

/-- A mantissa at its target exponent has at most fifty-three bits, fewer only with the least exponent. -/
theorem bits_shifted {Q : ℕ} {E : ℤ} (nonzero : Q ≠ 0) (fine : E ≤ target Q E) (visible : -1074 ≤ Q.log2 + E) :
    Q / 2 ^ (target Q E - E).toNat < 9007199254740992 ∧
      (4503599627370496 ≤ Q / 2 ^ (target Q E - E).toNat ∨ target Q E = -1074) ∧
      2 ^ (Q.log2 - (target Q E - E).toNat) ≤ Q / 2 ^ (target Q E - E).toNat := by
  have lower : 2 ^ Q.log2 ≤ Q := Nat.log2_self_le nonzero
  have upper : Q < 2 ^ (Q.log2 + 1) := Nat.lt_log2_self
  have reach : (target Q E - E).toNat ≤ Q.log2 := by
    unfold target
    omega
  have bottom : 2 ^ (Q.log2 - (target Q E - E).toNat) ≤ Q / 2 ^ (target Q E - E).toNat := by
    rw [Nat.le_div_iff_mul_le (Nat.two_pow_pos _), ← Nat.pow_add, Nat.sub_add_cancel reach]
    exact lower
  refine ⟨?_, ?_, bottom⟩
  · rw [Nat.div_lt_iff_lt_mul (Nat.two_pow_pos _)]
    calc Q < 2 ^ (Q.log2 + 1) := upper
      _ ≤ 2 ^ (53 + (target Q E - E).toNat) := Nat.pow_le_pow_right (by decide) (by unfold target; omega)
      _ = 9007199254740992 * 2 ^ (target Q E - E).toNat := by rw [Nat.pow_add]
  · by_cases least : target Q E = -1074
    · exact .inr least
    · refine .inl (le_trans ?_ bottom)
      have : 52 ≤ Q.log2 - (target Q E - E).toNat := by
        unfold target at *
        omega
      calc 4503599627370496 = 2 ^ 52 := by norm_num
        _ ≤ 2 ^ (Q.log2 - (target Q E - E).toNat) := Nat.pow_le_pow_right (by decide) this

/-- Mantissas and exponents that rounding ends with; the exponent may be too large for a number. -/
structure Rounded (m : ℕ) (q : ℤ) : Prop where
  positive : 0 < m
  small : m < 9007199254740992
  least : -1074 ≤ q
  full : 4503599627370496 ≤ m ∨ q = -1074

/-- The mantissa that is left at the target exponent, rounded. -/
def roundedAt (Q : ℕ) (E : ℤ) (acc : Accuracy) : ℕ :=
  (ExtendedMantissa.ofMantissaAndAccuracy Q acc >>> (target Q E - E).toNat).roundedMantissa

theorem roundedAt_bounds (Q : ℕ) (E : ℤ) (acc : Accuracy) :
    Q / 2 ^ (target Q E - E).toNat ≤ roundedAt Q E acc ∧ roundedAt Q E acc ≤ Q / 2 ^ (target Q E - E).toNat + 1 := by
  have bounds := roundedMantissa_bounds (ExtendedMantissa.ofMantissaAndAccuracy Q acc >>> (target Q E - E).toNat)
  rwa [mantissa_shiftRight, mantissa_ofMantissaAndAccuracy] at bounds

/-- A fifty-fourth bit that rounding gives moves on to the exponent, which keeps the value. -/
theorem roundWithAccuracy_value {Q : ℕ} {E : ℤ} (nonzero : Q ≠ 0) (fine : E ≤ target Q E)
    (visible : -1074 ≤ Q.log2 + E) (s : Sign) (acc : Accuracy) :
    ∃ m q, ∃ rounded : Rounded m q, roundWithAccuracy binary64 s Q E acc = .finite s m q rounded.positive ∧
      (m : ℚ) * 2 ^ q = roundedAt Q E acc * 2 ^ target Q E := by
  obtain ⟨small, full, bottom⟩ := bits_shifted nonzero fine visible
  obtain ⟨above, below⟩ := roundedAt_bounds Q E acc
  have least : -1074 ≤ target Q E := le_max_right _ _
  have exponent : E + ((target Q E - E).toNat : ℤ) = target Q E := by omega
  unfold roundWithAccuracy
  rw [shiftToTargetExponent_eq, exponent]
  dsimp only
  unfold roundedAt at above below ⊢
  generalize ExtendedMantissa.roundedMantissa _ = R at *
  generalize Q / 2 ^ (target Q E - E).toNat = M at *
  by_cases carry : R = 9007199254740992
  · rw [carry, shift_carry least]
    refine ⟨4503599627370496, target Q E + 1, ⟨by decide, by decide, by omega, .inl le_rfl⟩, rfl, ?_⟩
    rw [zpow_add₀ (by norm_num : (2 : ℚ) ≠ 0), zpow_one]
    push_cast
    ring
  · have positive : 0 < R := lt_of_lt_of_le (Nat.two_pow_pos _) (le_trans bottom above)
    rw [shift_small (by omega) least]
    exact ⟨R, target Q E, ⟨positive, by omega, least, full.imp_left fun normal => le_trans normal above⟩,
      dif_neg (Nat.pos_iff_ne_zero.mp positive), rfl⟩

theorem roundWithAccuracy_size {Q : ℕ} {E : ℤ} (nonzero : Q ≠ 0) (fine : E ≤ target Q E)
    (visible : -1074 ≤ Q.log2 + E) (s : Sign) (acc : Accuracy) :
    ∃ m q, ∃ rounded : Rounded m q, roundWithAccuracy binary64 s Q E acc = .finite s m q rounded.positive ∧
      (2 : ℚ) ^ (Q.log2 + E) ≤ m * 2 ^ q ∧ (m : ℚ) * 2 ^ q ≤ 2 * 2 ^ (Q.log2 + E) := by
  obtain ⟨-, -, bottom⟩ := bits_shifted nonzero fine visible
  obtain ⟨m, q, rounded, result, value⟩ := roundWithAccuracy_value nonzero fine visible s acc
  obtain ⟨above, below⟩ := roundedAt_bounds Q E acc
  have reach : (target Q E - E).toNat ≤ Q.log2 := by
    unfold target
    omega
  have top : Q / 2 ^ (target Q E - E).toNat < 2 ^ (Q.log2 - (target Q E - E).toNat + 1) := by
    rw [Nat.div_lt_iff_lt_mul (Nat.two_pow_pos _), ← Nat.pow_add]
    exact lt_of_lt_of_le Nat.lt_log2_self (Nat.pow_le_pow_right (by decide) (by omega))
  have least : (2 : ℚ) ^ (Q.log2 - (target Q E - E).toNat) ≤ roundedAt Q E acc := by
    exact_mod_cast le_trans bottom above
  have greatest : (roundedAt Q E acc : ℚ) ≤ 2 * 2 ^ (Q.log2 - (target Q E - E).toNat) := by
    have : roundedAt Q E acc ≤ 2 * 2 ^ (Q.log2 - (target Q E - E).toNat) := by
      rw [Nat.pow_succ] at top
      omega
    exact_mod_cast this
  have scale : (2 : ℚ) ^ (Q.log2 + E) = 2 ^ (Q.log2 - (target Q E - E).toNat) * 2 ^ target Q E := by
    rw [← zpow_natCast, ← zpow_add₀ (by norm_num)]
    congr 1
    omega
  rw [scale, ← mul_assoc]
  exact ⟨m, q, rounded, result, by rw [value]; gcongr, by rw [value]; gcongr⟩

theorem read_pack_rounded {m : ℕ} {q : ℤ} (rounded : Rounded m q) (negative : Bool) :
    read (Float.ofModel (Float.Model.pack (.finite (signOf negative) m q rounded.positive))) =
      if q ≤ 971 then .finite negative m q else .infinite negative := by
  obtain ⟨positive, small, least, full⟩ := rounded
  split
  · next finite =>
    have proper : (Reading.finite negative m q).Proper := ⟨small, least, finite, full⟩
    have unpacked : (Reading.finite negative m q).unpacked = .finite (signOf negative) m q positive :=
      dif_neg (Nat.pos_iff_ne_zero.mp positive)
    rw [← unpacked, read_pack proper]
  · next large =>
    have top : 2 ^ binary64.exponentBits ≤
        (q + (binary64.exponentBias : ℤ) + (binary64.mantissaBitsWithoutImplicit : ℤ)).toNat + 1 := by
      change 2048 ≤ (q + 1023 + 52).toNat + 1
      omega
    have packed : UnpackedFloat.pack binary64 (.finite (signOf negative) m q positive) =
        UnpackedFloat.pack binary64 (.infinity (signOf negative)) := if_pos top
    have same : Float.Model.pack (.finite (signOf negative) m q positive) =
        Float.Model.pack (.infinity (signOf negative)) := by
      unfold Float.Model.pack
      congr 1
      rw [packed]
    rw [same]
    cases negative <;> rfl

/-! ### Differences -/

theorem log2_mul_two_pow {Q : ℕ} (nonzero : Q ≠ 0) (k : ℕ) : (Q * 2 ^ k).log2 = Q.log2 + k := by
  induction k with
  | zero => simp
  | succ k ih =>
    have : Q * 2 ^ k ≠ 0 := Nat.mul_ne_zero nonzero (Nat.two_pow_pos k).ne'
    rw [Nat.pow_succ, ← Nat.mul_assoc, Nat.mul_comm _ 2, Nat.log2_two_mul this, ih, Nat.add_assoc]

theorem two_pow_log2_le {Q : ℕ} (nonzero : Q ≠ 0) (E : ℤ) : (2 : ℚ) ^ (Q.log2 + E) ≤ Q * 2 ^ E := by
  have : (2 : ℚ) ^ (Q.log2 : ℤ) ≤ Q := by exact_mod_cast Nat.log2_self_le nonzero
  rw [zpow_add₀ (by norm_num)]
  gcongr

/-- Before rounding, the exponent is lowered to that of the result. -/
theorem round_lowered {Q : ℕ} {E : ℤ} (nonzero : Q ≠ 0) (s : Sign) :
    ∃ k : ℕ, UnpackedFloat.round binary64 s Q E = roundWithAccuracy binary64 s (Q * 2 ^ k) (E - k) .exact ∧
      E - k ≤ target (Q * 2 ^ k) (E - k) := by
  let k := (E - target Q E).toNat
  have log : (Q * 2 ^ k).log2 = Q.log2 + k := log2_mul_two_pow nonzero k
  have small : (k : ℤ) = max 0 (E - target Q E) := by omega
  refine ⟨k, ?_, ?_⟩
  · rw [← Nat.shiftLeft_eq]
    rfl
  · unfold target at small ⊢
    omega

theorem round_rounded {Q : ℕ} {E : ℤ} (nonzero : Q ≠ 0) (least : -1074 ≤ E) (s : Sign) :
    ∃ m q, ∃ rounded : Rounded m q, UnpackedFloat.round binary64 s Q E = .finite s m q rounded.positive ∧
      (m : ℚ) * 2 ^ q ≤ 2 * (Q * 2 ^ E) := by
  obtain ⟨k, lowered, fine⟩ := round_lowered (E := E) nonzero s
  have log : (Q * 2 ^ k).log2 = Q.log2 + k := log2_mul_two_pow nonzero k
  obtain ⟨m, q, rounded, same, -, size⟩ := roundWithAccuracy_size
    (Nat.mul_ne_zero nonzero (Nat.two_pow_pos k).ne') fine (by omega) s .exact
  have exponent : ((Q.log2 + k : ℕ) : ℤ) + (E - k) = Q.log2 + E := by omega
  rw [log, exponent] at size
  have := two_pow_log2_le nonzero E
  exact ⟨m, q, rounded, lowered.trans same, by linarith⟩

/-- A mantissa that is not zero is not rounded away, nor to more than twice its size. -/
theorem normalize_rounded {M E : ℤ} (nonzero : M ≠ 0) (least : -1074 ≤ E) (zero : Sign) :
    ∃ negative m q, ∃ rounded : Rounded m q,
      UnpackedFloat.normalize binary64 M E zero = .finite (signOf negative) m q rounded.positive ∧
        (m : ℚ) * 2 ^ q ≤ 2 * (M.natAbs * 2 ^ E) := by
  unfold UnpackedFloat.normalize
  split
  · next less =>
    have := Int.compare_eq_lt.mp less
    have size : (-M).toNat = M.natAbs := by omega
    rw [size]
    exact ⟨true, round_rounded (by omega) least .negative⟩
  · next equal => exact absurd (Int.compare_eq_eq.mp equal) nonzero
  · next greater =>
    have := Int.compare_eq_gt.mp greater
    have size : M.toNat = M.natAbs := by omega
    rw [size]
    exact ⟨false, round_rounded (by omega) least .positive⟩

/-- A number as an integer at an exponent that is not larger than its own. -/
theorem value_lowered (negative : Bool) (m : ℕ) {q t : ℤ} (lower : t ≤ q) :
    (Reading.finite negative m q).value =
      ((signOf negative).apply ((m <<< (q - t).toNat : ℕ) : ℤ) : ℤ) * 2 ^ t := by
  have shift : ((m <<< (q - t).toNat : ℕ) : ℚ) * 2 ^ t = m * 2 ^ q := by
    rw [Nat.shiftLeft_eq]
    push_cast
    rw [mul_assoc, ← zpow_natCast, ← zpow_add₀ (by norm_num)]
    congr 2
    omega
  cases negative
  · change 1 * _ = (((m <<< (q - t).toNat : ℕ) : ℤ) : ℚ) * 2 ^ t
    rw [Int.cast_natCast, shift, one_mul]
  · change -1 * _ = ((-((m <<< (q - t).toNat : ℕ) : ℤ) : ℤ) : ℚ) * 2 ^ t
    rw [Int.cast_neg, Int.cast_natCast, ← shift]
    ring

theorem not_isZero_nan : ¬ (read (Float.ofModel (Float.Model.pack .notANumber))).IsZero := fun zero => zero

theorem not_isZero_infinity (s : Sign) : ¬ (read (Float.ofModel (Float.Model.pack (.infinity s)))).IsZero := by
  cases s <;> exact fun zero => zero

theorem not_isZero_rounded {m : ℕ} {q : ℤ} (rounded : Rounded m q) (negative : Bool) :
    ¬ (read (Float.ofModel (Float.Model.pack (.finite (signOf negative) m q rounded.positive)))).IsZero := by
  rw [read_pack_rounded rounded]
  split
  · exact rounded.positive.ne'
  · exact fun zero => zero

theorem Canonical.rounded {m : ℕ} {q : ℤ} (canonical : Canonical m q) (nonzero : m ≠ 0) : Rounded m q :=
  ⟨Nat.pos_of_ne_zero nonzero, canonical.small, canonical.least, canonical.full⟩

theorem sub_finite {s s' : Bool} {m m' : ℕ} {q q' : ℤ} (positive : 0 < m) (positive' : 0 < m') (least : -1074 ≤ q)
    (least' : -1074 ≤ q') (zero : (read (Float.ofModel (Float.Model.pack (UnpackedFloat.sub binary64
      (.finite (signOf s) m q positive) (.finite (signOf s') m' q' positive'))))).IsZero) :
    (Reading.finite s m q).value = (Reading.finite s' m' q').value := by
  rw [value_lowered s m (min_le_left q q'), value_lowered s' m' (min_le_right q q')]
  change (read (Float.ofModel (Float.Model.pack (UnpackedFloat.normalize binary64
    ((signOf s).apply ((m <<< (q - min q q').toNat : ℕ) : ℤ) -
      (signOf s').apply ((m' <<< (q' - min q q').toNat : ℕ) : ℤ)) (min q q') .positive)))).IsZero at zero
  generalize (signOf s).apply _ = M at *
  generalize (signOf s').apply _ = M' at *
  by_cases same : M - M' = 0
  · rw [Int.sub_eq_zero.mp same]
  · obtain ⟨negative, m, q, rounded, result, -⟩ := normalize_rounded same (le_min least least') .positive
    rw [result] at zero
    exact absurd zero (not_isZero_rounded rounded negative)

theorem sub_unpacked {r r' : Reading} (proper : r.Proper) (proper' : r'.Proper)
    (zero : (read (Float.ofModel (Float.Model.pack (UnpackedFloat.sub binary64 r.unpacked r'.unpacked)))).IsZero) :
    r ≠ .nan ∧ r' ≠ .nan ∧ r.value = r'.value := by
  cases r with
  | nan => exact absurd zero not_isZero_nan
  | infinite s =>
    cases r' with
    | nan => exact absurd zero not_isZero_nan
    | infinite s' => cases s <;> cases s' <;> exact absurd zero not_isZero_nan
    | finite s' m' q' =>
      by_cases none : m' = 0 <;> simp only [Reading.unpacked, none, dite_true, dite_false] at zero <;>
        exact absurd zero (not_isZero_infinity _)
  | finite s m q =>
    cases r' with
    | nan =>
      by_cases none : m = 0 <;> simp only [Reading.unpacked, none, dite_true, dite_false] at zero <;>
        exact absurd zero not_isZero_nan
    | infinite s' =>
      by_cases none : m = 0 <;> simp only [Reading.unpacked, none, dite_true, dite_false] at zero <;>
        exact absurd zero (not_isZero_infinity _)
    | finite s' m' q' =>
      refine ⟨by simp, by simp, ?_⟩
      by_cases none : m = 0 <;> by_cases none' : m' = 0 <;>
        simp only [Reading.unpacked, none, none', dite_true, dite_false] at zero
      · simp [Reading.value, none, none']
      · cases s' with
        | false => exact absurd zero (not_isZero_rounded (Canonical.rounded proper' none') true)
        | true => exact absurd zero (not_isZero_rounded (Canonical.rounded proper' none') false)
      · exact absurd zero (not_isZero_rounded (Canonical.rounded proper none) s)
      · exact sub_finite _ _ (Canonical.least proper) (Canonical.least proper') zero

/-- A difference is zero only between numbers that stand for the same: it is a multiple of the least
number, so it is not rounded away. -/
theorem sub_isZero {x y : Float} (zero : (read (x - y)).IsZero) :
    read x ≠ .nan ∧ read y ≠ .nan ∧ (read x).value = (read y).value := by
  change (read (Float.ofModel (Float.Model.pack
    (UnpackedFloat.sub binary64 x.toModel.unpack y.toModel.unpack)))).IsZero at zero
  rw [unpack_eq, unpack_eq] at zero
  exact sub_unpacked (proper_read x) (proper_read y) zero

/-! ### Integers -/

theorem exists_canonical {n : ℕ} (positive : 0 < n) (small : n < 9007199254740992) :
    ∃ m q, Canonical m q ∧ 0 < m ∧ (m : ℚ) * 2 ^ q = n := by
  have log : n.log2 < 53 := (Nat.log2_lt (by omega)).mpr small
  have size : (n * 2 ^ (52 - n.log2)).log2 = 52 := by
    rw [log2_mul_two_pow (by omega)]
    omega
  have nonzero : n * 2 ^ (52 - n.log2) ≠ 0 := Nat.mul_ne_zero (by omega) (Nat.two_pow_pos _).ne'
  have ⟨bottom, top⟩ := (Nat.log2_eq_iff nonzero).mp size
  refine ⟨n * 2 ^ (52 - n.log2), n.log2 - 52, ⟨by omega, by omega, by omega, .inl (by omega)⟩, by omega, ?_⟩
  have cancel : ((52 - n.log2 : ℕ) : ℤ) + ((n.log2 : ℤ) - 52) = 0 := by omega
  push_cast
  rw [← zpow_natCast, mul_assoc, ← zpow_add₀ (by norm_num), cancel, zpow_zero, mul_one]

theorem read_ofNat_small {n : ℕ} (small : n < 9007199254740992) :
    ∃ m q, read (Float.ofNat n) = .finite false m q ∧ (m : ℚ) * 2 ^ q = n := by
  rcases Nat.eq_zero_or_pos n with rfl | positive
  · exact ⟨0, -1074, rfl, by simp⟩
  · obtain ⟨m, q, canonical, nonzero, value⟩ := exists_canonical positive small
    have rounds : Rounds m q (n * 10 ^ (0 : ℤ)) := by
      rw [zpow_zero, mul_one, ← value]
      exact rounds_self m q
    have decimal : Float.ofNat n = Decimal.scaled n 0 := rfl
    rw [decimal]
    exact ⟨m, q, read_scaled canonical nonzero rounds, value⟩

/-- Integers with more bits are rounded as the product that they are made of. -/
theorem ofNat_large {n : ℕ} (large : 9007199254740992 ≤ n) :
    Float.ofNat n = Float.ofModel (Float.Model.pack (roundWithAccuracy binary64 .positive (n * 2 ^ 53) (-53) .exact)) := by
  have long : ¬ (n < 2 ^ 53 ∧ 0 ≤ 22) := by omega
  have nonzero : n ≠ 0 := by omega
  have notTiny : ¬ (0 : ℤ) < -((2 ^ binary64.exponentBits : ℤ) + n.log2) := by
    change ¬ (0 : ℤ) < -(2048 + n.log2)
    omega
  have notHuge : ¬ (0 : ℤ) > 2 ^ binary64.exponentBits := by
    change ¬ (0 : ℤ) > 2048
    omega
  have scientific : Float.ofNat n =
      Float.ofModel (Float.Model.pack (UnpackedFloat.ofScientific binary64 n 0)) := dif_neg long
  have product : UnpackedFloat.ofScientific binary64 n 0 =
      roundWithAccuracy binary64 .positive (n <<< 53 * 10 ^ 0) (-53 + 0) .exact := by
    unfold UnpackedFloat.ofScientific
    rw [dif_neg nonzero, if_neg notHuge, if_neg notTiny, if_pos le_rfl]
    rfl
  rw [scientific, product, Nat.shiftLeft_eq, Nat.pow_zero, Nat.mul_one, Int.add_zero]

/-- They may change when they are rounded, but none of them gets below fifty-four bits. -/
theorem value_ofNat_large {n : ℕ} (large : 9007199254740992 ≤ n) :
    read (Float.ofNat n) ≠ .nan ∧ 9007199254740992 ≤ (read (Float.ofNat n)).value := by
  have log : 53 ≤ n.log2 := (Nat.le_log2 (by omega)).mpr large
  have bits : (n * 2 ^ 53).log2 = n.log2 + 53 := log2_mul_two_pow (by omega) 53
  have nonzero : n * 2 ^ 53 ≠ 0 := Nat.mul_ne_zero (by omega) (Nat.two_pow_pos 53).ne'
  have fine : -53 ≤ target (n * 2 ^ 53) (-53) := by
    unfold target
    rw [bits]
    omega
  obtain ⟨m, q, rounded, result, size, -⟩ := roundWithAccuracy_size nonzero fine (by omega) .positive .exact
  have least : (9007199254740992 : ℚ) ≤ m * 2 ^ q := by
    rw [bits] at size
    refine le_trans ?_ size
    calc (9007199254740992 : ℚ) = 2 ^ (53 : ℤ) := by norm_num
      _ ≤ 2 ^ (((n.log2 + 53 : ℕ) : ℤ) + -53) := zpow_le_zpow_right₀ (by norm_num) (by omega)
  have known := read_pack_rounded rounded false
  rw [ofNat_large large, result]
  change read (Float.ofModel (Float.Model.pack (.finite .positive m q _))) = _ at known
  rw [known]
  split
  · exact ⟨by simp, by simpa [Reading.value, factor] using least⟩
  · refine ⟨by simp, ?_⟩
    have : (9007199254740992 : ℚ) ≤ ceiling := by
      calc (9007199254740992 : ℚ) = 2 ^ (53 : ℤ) := by norm_num
        _ ≤ ceiling := zpow_le_zpow_right₀ (by norm_num) (by norm_num)
    simpa [Reading.value, factor] using this

theorem value_negate (r : Reading) : r.negate.value = -r.value := by
  have flip : ∀ negative, factor (!negative) = -factor negative := by
    intro negative
    cases negative <;> simp [factor]
  cases r <;> simp [Reading.negate, Reading.value, flip]

/-- What an integer is rounded to: itself up to fifty-three bits. In any case it compares to such integers as
before. -/
structure OfInt (n : ℤ) (r : Reading) : Prop where
  isNumber : r ≠ .nan
  exact : n.natAbs < 9007199254740992 → r.value = n
  above : ∀ k : ℤ, k.natAbs < 9007199254740992 → (k < r.value ↔ k < n)
  below : ∀ k : ℤ, k.natAbs < 9007199254740992 → (r.value < k ↔ n < k)

theorem ofInt_natCast (n : ℕ) : OfInt n (read (Float.ofNat n)) := by
  by_cases small : n < 9007199254740992
  · obtain ⟨m, q, known, value⟩ := read_ofNat_small small
    have same : (read (Float.ofNat n)).value = ((n : ℤ) : ℚ) := by
      rw [known]
      simp [Reading.value, factor, value]
    exact ⟨by simp [known], fun _ => same, fun k _ => by rw [same, Int.cast_lt], fun k _ => by rw [same, Int.cast_lt]⟩
  · obtain ⟨isNumber, large⟩ := value_ofNat_large (Nat.le_of_not_lt small)
    have less : ∀ k : ℤ, k.natAbs < 9007199254740992 → (k : ℚ) < (read (Float.ofNat n)).value := by
      intro k bound
      have : (k : ℚ) < (9007199254740992 : ℤ) := Int.cast_lt.mpr (by omega)
      push_cast at this
      linarith
    refine ⟨isNumber, by omega, fun k bound => iff_of_true (less k bound) (by omega), fun k bound => ?_⟩
    exact iff_of_false (not_lt_of_gt (less k bound)) (by omega)

theorem ofInt_read (n : ℤ) : OfInt n (read (Float.ofInt n)) := by
  cases n with
  | ofNat k => exact ofInt_natCast k
  | negSucc k =>
    have negated : read (Float.ofInt (.negSucc k)) = (read (Float.ofNat (k + 1))).negate := read_neg _
    obtain ⟨isNumber, exact, above, below⟩ := ofInt_natCast (k + 1)
    rw [negated, Int.negSucc_eq]
    refine ⟨fun nan => isNumber ?_, fun small => ?_, fun k bound => ?_, fun k bound => ?_⟩
    · cases found : read (Float.ofNat (k + 1)) with
      | nan => rfl
      | infinite negative => rw [found] at nan; cases nan
      | finite negative m q => rw [found] at nan; cases nan
    · rw [value_negate, exact (by omega)]
      push_cast
      rfl
    · have flipped := below (-k) (by omega)
      rw [value_negate, lt_neg, ← Int.cast_neg, flipped]
      omega
    · have flipped := above (-k) (by omega)
      rw [value_negate, neg_lt, ← Int.cast_neg, flipped]
      omega

/-- Rounding two integers keeps their order if one of them has at most fifty-three bits. -/
theorem ofInt_lt_ofInt {a b : ℤ} (small : a.natAbs < 9007199254740992 ∨ b.natAbs < 9007199254740992) :
    Float.ofInt a < Float.ofInt b ↔ a < b := by
  have left := ofInt_read a
  have right := ofInt_read b
  rw [lt_iff]
  simp only [left.isNumber, right.isNumber, ne_eq, not_false_eq_true, true_and]
  rcases small with small | small
  · rw [left.exact small, right.above a small]
  · rw [right.exact small, left.below b small]

/-! ### Integer parts -/

theorem nearestPart_eq {m n : ℕ} {q : ℤ} (value : (m : ℚ) * 2 ^ q = n) : nearestPart m q = n := by
  unfold nearestPart
  split
  · next nonneg =>
    obtain ⟨k, rfl⟩ := Int.eq_ofNat_of_zero_le nonneg
    rw [zpow_natCast] at value
    exact_mod_cast value
  · next negative =>
    obtain ⟨k, rfl⟩ : ∃ k : ℕ, q = -(k + 1 : ℕ) := ⟨(-q).toNat - 1, by omega⟩
    have whole : m = n * 2 ^ (k + 1) := by
      rw [zpow_neg, zpow_natCast, ← div_eq_mul_inv, div_eq_iff (by positivity)] at value
      exact_mod_cast value
    have half : 2 ^ k < 2 ^ (k + 1) := Nat.pow_lt_pow_right (by decide) (by omega)
    rw [Int.neg_neg, Int.toNat_natCast, whole]
    change (n * 2 ^ (k + 1) + 2 ^ k) / 2 ^ (k + 1) = n
    rw [Nat.mul_comm, Nat.mul_add_div (Nat.two_pow_pos _), Nat.div_eq_of_lt half, Nat.add_zero]

theorem read_ofInt_small {n : ℤ} (small : n.natAbs < 9007199254740992) :
    ∃ m q, read (Float.ofInt n) = .finite (decide (n < 0)) m q ∧ (m : ℚ) * 2 ^ q = n.natAbs := by
  cases n with
  | ofNat k => exact read_ofNat_small small
  | negSucc k =>
    obtain ⟨m, q, known, value⟩ := read_ofNat_small (n := k + 1) small
    have negated : read (Float.ofInt (.negSucc k)) = (read (Float.ofNat (k + 1))).negate := read_neg _
    rw [known] at negated
    have less : decide (Int.negSucc k < 0) = true := decide_eq_true (Int.negSucc_lt_zero k)
    rw [less]
    exact ⟨m, q, negated, value⟩

theorem round_ofInt {n : ℤ} (small : n.natAbs < 9007199254740992) : round (Float.ofInt n) = n := by
  obtain ⟨m, q, known, value⟩ := read_ofInt_small small
  unfold round toWord
  rw [known]
  dsimp only
  rw [nearestPart_eq value]
  unfold clampWord signed minWord maxWord
  by_cases negative : n < 0
  · rw [decide_eq_true negative, if_pos rfl]
    omega
  · rw [decide_eq_false negative, if_neg (by decide)]
    omega

/-- The magnitude and the sign of an integer. -/
theorem value_integer {negative : Bool} {m : ℕ} {q : ℤ} {n : ℤ} (value : (Reading.finite negative m q).value = n) :
    (m : ℚ) * 2 ^ q = n.natAbs ∧ signed negative n.natAbs = n := by
  have nonneg := magnitude_nonneg m q
  constructor
  · have : |(Reading.finite negative m q).value| = |(n : ℚ)| := by rw [value]
    rw [← Int.cast_abs, Int.abs_eq_natAbs] at this
    cases negative <;> simpa [Reading.value, factor, abs_of_nonneg nonneg] using this
  · unfold signed
    cases negative with
    | false =>
      have : (0 : ℚ) ≤ n := by simpa [← value, Reading.value, factor] using nonneg
      have : 0 ≤ n := by exact_mod_cast this
      simp only [Bool.false_eq_true, if_false]
      omega
    | true =>
      have : (n : ℚ) ≤ 0 := by simpa [← value, Reading.value, factor] using nonneg
      have : n ≤ 0 := by exact_mod_cast this
      simp only [if_true]
      omega

/-- The integer part of a number, toward zero. -/
def integerPart (v : ℚ) : ℤ := if 0 ≤ v then ⌊v⌋ else ⌈v⌉

theorem floorPart_eq (m : ℕ) (q : ℤ) : (floorPart m q : ℤ) = ⌊(m : ℚ) * 2 ^ q⌋ := by
  unfold floorPart
  split
  · next nonneg =>
    obtain ⟨k, rfl⟩ := Int.eq_ofNat_of_zero_le nonneg
    have whole : (m : ℚ) * 2 ^ (k : ℤ) = ((m * 2 ^ k : ℕ) : ℤ) := by
      rw [zpow_natCast]
      push_cast
      rfl
    rw [whole, Int.floor_intCast]
    rfl
  · next negative =>
    obtain ⟨k, rfl⟩ : ∃ k : ℕ, q = -(k : ℤ) := ⟨(-q).toNat, by omega⟩
    rw [zpow_neg, zpow_natCast, ← div_eq_mul_inv, Int.neg_neg, Int.toNat_natCast]
    have := Rat.floor_intCast_div_natCast (m : ℤ) (2 ^ k)
    push_cast at this
    rw [this]
    rfl

theorem word_le_ceiling : ((9223372036854775808 : ℤ) : ℚ) ≤ ceiling := by
  calc ((9223372036854775808 : ℤ) : ℚ) = 2 ^ (63 : ℤ) := by norm_num
    _ ≤ ceiling := zpow_le_zpow_right₀ (by norm_num) (by norm_num)

theorem integerPart_factor {v : ℚ} (nonneg : 0 ≤ v) (negative : Bool) :
    integerPart (factor negative * v) = if negative then -⌊v⌋ else ⌊v⌋ := by
  cases negative with
  | false => simp [factor, integerPart, nonneg]
  | true =>
    rcases nonneg.eq_or_lt with rfl | positive
    · simp [factor, integerPart]
    · simp [factor, integerPart, positive.not_ge, Int.ceil_neg]

theorem truncate_eq (x : Float) :
    truncate x = if x.isNaN then 0 else clampWord (integerPart (read x).value) := by
  have nan := isNaN_iff x
  unfold truncate toWord
  cases found : read x with
  | nan => rw [if_pos (nan.mpr found)]
  | infinite negative =>
    have large : 9223372036854775808 ≤ ⌊ceiling⌋ := Int.le_floor.mpr word_le_ceiling
    rw [if_neg (by rw [nan, found]; simp), Reading.value, integerPart_factor ceiling_pos.le]
    cases negative with
    | false =>
      change (9223372036854775807 : ℤ) = max (-9223372036854775808) (min ⌊ceiling⌋ 9223372036854775807)
      omega
    | true =>
      change (-9223372036854775808 : ℤ) = max (-9223372036854775808) (min (-⌊ceiling⌋) 9223372036854775807)
      omega
  | finite negative m q =>
    rw [if_neg (by rw [nan, found]; simp), Reading.value, integerPart_factor (magnitude_nonneg m q), ← floorPart_eq]
    rfl

end RetroScript.Number
