import RetroScript.Proofs.NumberValue

/-!
# Results are nearest numbers

A mantissa is rounded by at most one half (`Represents.near`), so integers and square roots are off by at most
one part in `2 ^ 53`: `read_ofNat_near`, `read_sqrt_near`. A root is compared by its square, since it need not be
rational.
-/

namespace RetroScript.Number

open Float.Model (UnpackedFloat)
open Float.Model.UnpackedFloat
open Float.Model.Format (binary64)

/-! ### Mantissas -/

theorem Represents.near {em : ExtendedMantissa} {x : ℚ} (rep : Represents em x) :
    |(em.roundedMantissa : ℚ) - x| ≤ 1 / 2 := by
  obtain ⟨m, round, sticky⟩ := em
  have same : halves ⟨m, round, sticky⟩ = 2 * m + round.toNat := rfl
  unfold Represents at rep
  rw [same] at rep
  rw [abs_le]
  cases sticky with
  | true =>
    obtain ⟨above, below⟩ := rep
    cases round with
    | false =>
      change -(1 / 2) ≤ (m : ℚ) - x ∧ (m : ℚ) - x ≤ 1 / 2
      simp only [Bool.toNat_false, Nat.add_zero] at above below
      push_cast at above below
      constructor <;> linarith
    | true =>
      change -(1 / 2) ≤ ((m + 1 : ℕ) : ℚ) - x ∧ ((m + 1 : ℕ) : ℚ) - x ≤ 1 / 2
      simp only [Bool.toNat_true] at above below
      push_cast at above below ⊢
      constructor <;> linarith
  | false =>
    have exactly : 2 * x = ((2 * m + round.toNat : ℕ) : ℚ) := rep
    cases round with
    | false =>
      change -(1 / 2) ≤ (m : ℚ) - x ∧ (m : ℚ) - x ≤ 1 / 2
      simp only [Bool.toNat_false, Nat.add_zero] at exactly
      push_cast at exactly
      constructor <;> linarith
    | true =>
      change -(1 / 2) ≤ ((m + m % 2 : ℕ) : ℚ) - x ∧ ((m + m % 2 : ℕ) : ℚ) - x ≤ 1 / 2
      have parity : ((m % 2 : ℕ) : ℚ) ≤ 1 := by exact_mod_cast Nat.le_of_lt_succ (Nat.mod_lt m (by decide))
      have nonneg : (0 : ℚ) ≤ (m % 2 : ℕ) := by positivity
      simp only [Bool.toNat_true] at exactly
      push_cast at exactly parity nonneg ⊢
      constructor <;> linarith

theorem roundedAt_near {Q : ℕ} {E : ℤ} {acc : Accuracy} {x : ℚ}
    (rep : Represents (ExtendedMantissa.ofMantissaAndAccuracy Q acc) x) :
    |(roundedAt Q E acc : ℚ) - x / 2 ^ (target Q E - E).toNat| ≤ 1 / 2 :=
  (rep.shiftRight _).near

/-- A rounded number below the ceiling is a number. -/
theorem Rounded.exponent_le {m : ℕ} {q : ℤ} (rounded : Rounded m q) (below : (m : ℚ) * 2 ^ q < ceiling) : q ≤ 971 := by
  by_contra large
  have normal : 4503599627370496 ≤ m := by
    have := rounded.full
    omega
  have : ceiling ≤ (m : ℚ) * 2 ^ q := by
    calc ceiling = 2 ^ ((52 : ℤ) + 972) := rfl
      _ = 2 ^ (52 : ℤ) * 2 ^ (972 : ℤ) := zpow_add₀ (by norm_num) _ _
      _ ≤ m * 2 ^ q := by
        have first : (2 : ℚ) ^ (52 : ℤ) ≤ m := by
          norm_num
          exact_mod_cast normal
        have second : (2 : ℚ) ^ (972 : ℤ) ≤ 2 ^ q := zpow_le_zpow_right₀ (by norm_num) (by omega)
        gcongr
  linarith

/-! ### Integers -/

section

variable {Q : ℕ} {E : ℤ} {acc : Accuracy} {v : ℚ}

/-- Above the least exponent a unit is less than one part in `2 ^ 52`. -/
theorem roundWithAccuracy_near (nonzero : Q ≠ 0) (fine : E ≤ target Q E) (normal : -1022 ≤ Q.log2 + E)
    (rep : Represents (ExtendedMantissa.ofMantissaAndAccuracy Q acc) (v / 2 ^ E)) (s : Sign) :
    ∃ m q, ∃ rounded : Rounded m q, roundWithAccuracy binary64 s Q E acc = .finite s m q rounded.positive ∧
      |(m : ℚ) * 2 ^ q - v| ≤ v / 9007199254740992 := by
  obtain ⟨m, q, rounded, result, value⟩ := roundWithAccuracy_value nonzero fine (by omega) s acc
  have near := roundedAt_near (E := E) rep
  have floor := rep.floor
  have unit : (0 : ℚ) < 2 ^ target Q E := by positivity
  have exponent : E + ((target Q E - E).toNat : ℤ) = target Q E := by omega
  have scaled : v / 2 ^ E / 2 ^ (target Q E - E).toNat * 2 ^ target Q E = v := by
    rw [← exponent, zpow_add₀ (by norm_num), zpow_natCast, exponent]
    field_simp
  have size : (2 : ℚ) ^ target Q E * 4503599627370496 ≤ v := by
    have least : target Q E = Q.log2 + E - 52 := by
      unfold target
      omega
    rw [mantissa_ofMantissaAndAccuracy, le_div_iff₀ (by positivity)] at floor
    calc (2 : ℚ) ^ target Q E * 4503599627370496 = 2 ^ (target Q E + 52) := by
          rw [zpow_add₀ (by norm_num)]
          norm_num
      _ = 2 ^ (Q.log2 + E) := by
          congr 1
          omega
      _ ≤ Q * 2 ^ E := two_pow_log2_le nonzero E
      _ ≤ v := floor.1
  refine ⟨m, q, rounded, result, ?_⟩
  calc |(m : ℚ) * 2 ^ q - v| =
        |(roundedAt Q E acc : ℚ) - v / 2 ^ E / 2 ^ (target Q E - E).toNat| * 2 ^ target Q E := by
        rw [value, ← abs_of_pos unit, ← abs_mul, abs_of_pos unit, sub_mul, scaled]
    _ ≤ 1 / 2 * 2 ^ target Q E := by gcongr
    _ ≤ v / 9007199254740992 := by
        rw [le_div_iff₀ (by norm_num)]
        linarith

theorem represents_exact (Q : ℕ) : Represents (ExtendedMantissa.ofMantissaAndAccuracy Q .exact) Q := by
  change 2 * (Q : ℚ) = ((2 * Q + 0 : ℕ) : ℚ)
  push_cast
  ring

end

theorem read_ofNat_near {n : ℕ} (below : (2 * n : ℚ) < ceiling) :
    ∃ m q, read (Float.ofNat n) = .finite false m q ∧ |(m : ℚ) * 2 ^ q - n| ≤ n / 9007199254740992 ∧
      (n < 9007199254740992 → (m : ℚ) * 2 ^ q = n) := by
  rcases Nat.lt_or_ge n 9007199254740992 with small | large
  · obtain ⟨m, q, known, value⟩ := read_ofNat_small small
    refine ⟨m, q, known, ?_, fun _ => value⟩
    rw [value, sub_self, abs_zero]
    exact div_nonneg (Nat.cast_nonneg n) (by norm_num)
  · have bits : (n * 2 ^ 53).log2 = n.log2 + 53 := log2_mul_two_pow (by omega) 53
    have nonzero : n * 2 ^ 53 ≠ 0 := Nat.mul_ne_zero (by omega) (Nat.two_pow_pos 53).ne'
    have fine : -53 ≤ target (n * 2 ^ 53) (-53) := by
      have : 53 ≤ n.log2 := (Nat.le_log2 (by omega)).mpr large
      unfold target
      rw [bits]
      omega
    have lowered : (n : ℚ) / 2 ^ (-53 : ℤ) = ((n * 2 ^ 53 : ℕ) : ℚ) := by
      rw [zpow_neg, div_inv_eq_mul]
      push_cast
      norm_num
    have rep := represents_exact (n * 2 ^ 53)
    rw [← lowered] at rep
    obtain ⟨m, q, rounded, result, near⟩ := roundWithAccuracy_near nonzero fine (by omega) rep .positive
    have finite : q ≤ 971 := by
      apply rounded.exponent_le
      have := (abs_le.mp near).2
      have : (0 : ℚ) ≤ n := Nat.cast_nonneg n
      linarith
    have known := read_pack_rounded rounded false
    rw [if_pos finite] at known
    rw [ofNat_large large, result]
    exact ⟨m, q, known, near, fun small => absurd small (by omega)⟩

/-! ### Square roots -/

/-- What the arithmetic notes of a root that is cut off to an integer. -/
def rootAccuracy (N : ℕ) : Accuracy :=
  if N - N.sqrt * N.sqrt = 0 then .exact else .inexact (if N - N.sqrt * N.sqrt ≤ N.sqrt then .lt else .gt)

/-- A rational that lies between the same halves as a square root can stand for it. -/
theorem represents_root (N : ℕ) : ∃ x : ℚ,
    Represents (ExtendedMantissa.ofMantissaAndAccuracy N.sqrt (rootAccuracy N)) x ∧
      ∀ j : ℕ, (j ≤ 2 * x → j * j ≤ 4 * N) ∧ (2 * x ≤ j → 4 * N ≤ j * j) := by
  have low : N.sqrt * N.sqrt ≤ N := Nat.sqrt_le N
  have high : N < (N.sqrt + 1) * (N.sqrt + 1) := Nat.lt_succ_sqrt N
  unfold rootAccuracy
  generalize N.sqrt = root at *
  have expanded : (root + 1) * (root + 1) = root * root + 2 * root + 1 := by ring
  have below : ∀ {j k : ℕ}, j ≤ k → k * k ≤ 4 * N → j * j ≤ 4 * N := fun le small =>
    le_trans (Nat.mul_self_le_mul_self le) small
  have above : ∀ {j k : ℕ}, k ≤ j → 4 * N ≤ k * k → 4 * N ≤ j * j := fun le large =>
    le_trans large (Nat.mul_self_le_mul_self le)
  have even : 2 * root * (2 * root) = 4 * (root * root) := by ring
  have odd : (2 * root + 1) * (2 * root + 1) = 4 * (root * root) + 4 * root + 1 := by ring
  have next : (2 * root + 2) * (2 * root + 2) = 4 * (root * root) + 8 * root + 4 := by ring
  by_cases exact' : N - root * root = 0
  · refine ⟨root, ?_, fun j => ⟨fun le => below (k := 2 * root) ?_ (by omega), fun le => above (k := 2 * root) ?_ (by omega)⟩⟩
    · rw [if_pos exact']
      exact represents_exact root
    · exact_mod_cast le
    · exact_mod_cast le
  · rw [if_neg exact']
    by_cases less : N - root * root ≤ root
    · refine ⟨root + 1 / 4, ?_, fun j => ⟨fun le => below (k := 2 * root) ?_ (by omega),
        fun le => above (k := 2 * root + 1) ?_ (by omega)⟩⟩
      · rw [if_pos less]
        change ((2 * root + 0 : ℕ) : ℚ) < _ ∧ _ < ((2 * root + 0 : ℕ) : ℚ) + 1
        push_cast
        constructor <;> linarith
      · have : (j : ℚ) < 2 * root + 1 := by linarith
        exact Nat.le_of_lt_succ (by exact_mod_cast this)
      · have : (2 * root : ℚ) < j := by linarith
        exact_mod_cast this
    · refine ⟨root + 3 / 4, ?_, fun j => ⟨fun le => below (k := 2 * root + 1) ?_ (by omega),
        fun le => above (k := 2 * root + 2) ?_ (by omega)⟩⟩
      · rw [if_neg less]
        change ((2 * root + 1 : ℕ) : ℚ) < _ ∧ _ < ((2 * root + 1 : ℕ) : ℚ) + 1
        push_cast
        constructor <;> linarith
      · have : (j : ℚ) < 2 * root + 2 := by linarith
        exact Nat.le_of_lt_succ (by exact_mod_cast this)
      · have : (2 * root + 1 : ℚ) < j := by linarith
        exact_mod_cast this

theorem log2_sqrt {N : ℕ} (nonzero : N ≠ 0) : N.sqrt.log2 = N.log2 / 2 := by
  have positive : 0 < N.sqrt := Nat.sqrt_pos.mpr (Nat.pos_of_ne_zero nonzero)
  rw [Nat.log2_eq_iff positive.ne']
  constructor
  · rw [Nat.le_sqrt, ← Nat.pow_add]
    exact le_trans (Nat.pow_le_pow_right (by decide) (by omega)) (Nat.log2_self_le nonzero)
  · rw [Nat.sqrt_lt, ← Nat.pow_add]
    exact lt_of_lt_of_le Nat.lt_log2_self (Nat.pow_le_pow_right (by decide) (by omega))

/-- `w` is the square root of `v`, up to one part in `2 ^ 53`. -/
structure RootNear (w v : ℚ) : Prop where
  nonneg : 0 ≤ w
  low : (w - w / 9007199254740992) ^ 2 ≤ v
  high : v ≤ (w + w / 9007199254740992) ^ 2

/-- The half units around a rounded root have squares around the number itself. -/
theorem rootNear_of_halves {R N k : ℕ} {T : ℤ} (normal : 4503599627370496 ≤ R)
    (low : ((2 * R - 1) * 2 ^ k) * ((2 * R - 1) * 2 ^ k) ≤ 4 * N)
    (high : 4 * N ≤ ((2 * R + 1) * 2 ^ k) * ((2 * R + 1) * 2 ^ k)) :
    RootNear (R * 2 ^ (T + k)) (N * 2 ^ (2 * T)) := by
  have units : (4503599627370496 : ℚ) ≤ R := by exact_mod_cast normal
  have unit : (0 : ℚ) < 2 ^ (T + k) := by positivity
  have square : (N : ℚ) * 2 ^ (2 * T) = N / (2 ^ k) ^ 2 * (2 ^ (T + k)) ^ 2 := by
    rw [zpow_add₀ (by norm_num), mul_comm 2 T, zpow_mul, zpow_natCast]
    field_simp
  have below : ((R : ℚ) - 1 / 2) ^ 2 ≤ N / (2 ^ k) ^ 2 := by
    have cast : ((2 * R - 1 : ℕ) : ℚ) = 2 * R - 1 := by
      rw [Nat.cast_sub (by omega)]
      push_cast
      ring
    have low' : ((2 * R - 1 : ℚ) * 2 ^ k) * ((2 * R - 1) * 2 ^ k) ≤ 4 * N := by
      rw [← cast]
      exact_mod_cast low
    rw [le_div_iff₀ (by positivity)]
    nlinarith
  have above : (N : ℚ) / (2 ^ k) ^ 2 ≤ (R + 1 / 2) ^ 2 := by
    have high' : (4 * N : ℚ) ≤ ((2 * R + 1) * 2 ^ k) * ((2 * R + 1) * 2 ^ k) := by exact_mod_cast high
    rw [div_le_iff₀ (by positivity)]
    nlinarith
  rw [square]
  generalize (2 : ℚ) ^ (T + k) = u at *
  generalize (N : ℚ) / (2 ^ k) ^ 2 = y at *
  have half : 1 / 2 ≤ (R : ℚ) / 9007199254740992 := by linarith
  refine ⟨by positivity, ?_, ?_⟩
  · calc ((R : ℚ) * u - R * u / 9007199254740992) ^ 2 = ((R : ℚ) - R / 9007199254740992) ^ 2 * u ^ 2 := by ring
      _ ≤ ((R : ℚ) - 1 / 2) ^ 2 * u ^ 2 :=
        mul_le_mul_of_nonneg_right (pow_le_pow_left₀ (by linarith) (by linarith) 2) (by positivity)
      _ ≤ y * u ^ 2 := by gcongr
  · calc y * u ^ 2 ≤ ((R : ℚ) + 1 / 2) ^ 2 * u ^ 2 := by gcongr
      _ ≤ ((R : ℚ) + R / 9007199254740992) ^ 2 * u ^ 2 :=
        mul_le_mul_of_nonneg_right (pow_le_pow_left₀ (by linarith) (by linarith) 2) (by positivity)
      _ = ((R : ℚ) * u + R * u / 9007199254740992) ^ 2 := by ring

theorem sqrt_near {m : ℕ} {q : ℤ} (canonical : Canonical m q) (positive : 0 < m) :
    ∃ m' q', ∃ rounded : Rounded m' q',
      UnpackedFloat.sqrt binary64 (.finite .positive m q positive) = .finite .positive m' q' rounded.positive ∧
        RootNear (m' * 2 ^ q') (m * 2 ^ q) := by
  obtain ⟨small, least, greatest, full⟩ := canonical
  let T : ℤ := min (q.ediv 2) (max ((m.log2 + 1 + q + 1).ediv 2 - 53) (-1074))
  let N : ℕ := m <<< (q - 2 * T).toNat
  have half : T ≤ q / 2 ∧ T ≤ (m.log2 + 1 + q + 1) / 2 - 53 ∧ -1000 ≤ T := by
    have first : T = min (q / 2) (max ((m.log2 + 1 + q + 1) / 2 - 53) (-1074)) := rfl
    omega
  have shifted : N = m * 2 ^ (q - 2 * T).toNat := Nat.shiftLeft_eq ..
  have nonzero : N ≠ 0 := by
    rw [shifted]
    exact Nat.mul_ne_zero positive.ne' (Nat.two_pow_pos _).ne'
  have bits : N.sqrt.log2 = (m.log2 + (q - 2 * T).toNat) / 2 := by
    rw [log2_sqrt nonzero, shifted, log2_mul_two_pow positive.ne']
  have value : (m : ℚ) * 2 ^ q = N * 2 ^ (2 * T) := by
    rw [shifted]
    push_cast
    rw [mul_assoc, ← zpow_natCast, ← zpow_add₀ (by norm_num)]
    congr 2
    omega
  have fine : T ≤ target N.sqrt T := by
    unfold target
    omega
  have positive' : 0 < N.sqrt := Nat.sqrt_pos.mpr (Nat.pos_of_ne_zero nonzero)
  obtain ⟨x, rep, halves⟩ := represents_root N
  obtain ⟨m', q', rounded, result, rootValue⟩ :=
    roundWithAccuracy_value positive'.ne' fine (by omega) .positive (rootAccuracy N)
  refine ⟨m', q', rounded, result, ?_⟩
  have near := abs_le.mp (roundedAt_near (E := T) rep)
  have normal : 4503599627370496 ≤ roundedAt N.sqrt T (rootAccuracy N) := by
    obtain ⟨-, full, -⟩ := bits_shifted positive'.ne' fine (by omega)
    refine le_trans ?_ (roundedAt_bounds N.sqrt T (rootAccuracy N)).1
    refine full.resolve_right ?_
    unfold target
    omega
  have exponent : target N.sqrt T = T + ((target N.sqrt T - T).toNat : ℤ) := by omega
  rw [value, rootValue, exponent]
  generalize roundedAt N.sqrt T (rootAccuracy N) = R at *
  generalize (target N.sqrt T - T).toNat = k at *
  have scale : x = x / 2 ^ k * 2 ^ k := by field_simp
  have unit : (0 : ℚ) < 2 ^ k := by positivity
  apply rootNear_of_halves normal
  · apply (halves _).1
    push_cast [Nat.cast_sub (show 1 ≤ 2 * R by omega)]
    nlinarith
  · apply (halves _).2
    push_cast
    nlinarith

theorem RootNear.lt_ceiling {w v : ℚ} (near : RootNear w v) (below : v < ceiling) : w < ceiling := by
  obtain ⟨nonneg, low, -⟩ := near
  have four : (4 : ℚ) ≤ ceiling := by
    calc (4 : ℚ) = 2 ^ (2 : ℤ) := by norm_num
      _ ≤ ceiling := zpow_le_zpow_right₀ (by norm_num) (by norm_num)
  by_contra large
  have half : w / 2 ≤ w - w / 9007199254740992 := by linarith
  have square : (w / 2) ^ 2 ≤ v := le_trans (pow_le_pow_left₀ (by linarith) half 2) low
  nlinarith

theorem read_sqrt_near {x : Float} {m : ℕ} {q : ℤ} (known : read x = .finite false m q) :
    ∃ m' q', read x.sqrt = .finite false m' q' ∧ RootNear (m' * 2 ^ q') (m * 2 ^ q) := by
  have canonical : Canonical m q := by
    have proper := proper_read x
    rwa [known] at proper
  have unpacked : read x.sqrt =
      read (Float.ofModel (Float.Model.pack (UnpackedFloat.sqrt binary64 (Reading.finite false m q).unpacked))) := by
    rw [← known, ← unpack_eq]
    rfl
  rw [unpacked]
  rcases Nat.eq_zero_or_pos m with rfl | positive
  · have zeroForm : (Reading.finite false 0 q).unpacked = .zero .positive := by simp [Reading.unpacked, signOf]
    rw [zeroForm]
    exact ⟨0, -1074, rfl, by simp, by simp, by simp⟩
  · obtain ⟨m', q', rounded, result, near⟩ := sqrt_near canonical positive
    have finite := rounded.exponent_le (near.lt_ceiling canonical.lt_ceiling)
    have packed := read_pack_rounded rounded false
    rw [if_pos finite] at packed
    have positiveForm : (Reading.finite false m q).unpacked = .finite .positive m q positive := dif_neg positive.ne'
    rw [positiveForm, result]
    exact ⟨m', q', packed, near⟩

/-! ### Nearest integers -/

theorem nearestPart_bounds (m : ℕ) (q : ℤ) :
    (nearestPart m q : ℚ) - 1 / 2 ≤ m * 2 ^ q ∧ (m : ℚ) * 2 ^ q < nearestPart m q + 1 / 2 := by
  unfold nearestPart
  split
  · next nonneg =>
    obtain ⟨k, rfl⟩ := Int.eq_ofNat_of_zero_le nonneg
    have whole : ((m * 2 ^ k : ℕ) : ℚ) = m * 2 ^ (k : ℤ) := by
      rw [zpow_natCast]
      push_cast
      rfl
    show ((m * 2 ^ k : ℕ) : ℚ) - 1 / 2 ≤ _ ∧ _ < ((m * 2 ^ k : ℕ) : ℚ) + 1 / 2
    rw [whole]
    constructor <;> linarith
  · next negative =>
    obtain ⟨k, rfl⟩ : ∃ k : ℕ, q = -(k + 1 : ℕ) := ⟨(-q).toNat - 1, by omega⟩
    rw [Int.neg_neg, Int.toNat_natCast]
    show ((((m + 2 ^ k) / 2 ^ (k + 1) : ℕ) : ℚ) - 1 / 2 ≤ _ ∧ _ < (((m + 2 ^ k) / 2 ^ (k + 1) : ℕ) : ℚ) + 1 / 2)
    have parts := Nat.div_add_mod (m + 2 ^ k) (2 ^ (k + 1))
    have rest := Nat.mod_lt (m + 2 ^ k) (Nat.two_pow_pos (k + 1))
    generalize (m + 2 ^ k) / 2 ^ (k + 1) = n at *
    generalize (m + 2 ^ k) % 2 ^ (k + 1) = r at *
    have parts' : (2 * 2 ^ k * n + r : ℚ) = m + 2 ^ k := by
      rw [Nat.pow_succ, Nat.mul_comm (2 ^ k)] at parts
      exact_mod_cast parts
    have rest' : (r : ℚ) < 2 * 2 ^ k := by
      rw [Nat.pow_succ, Nat.mul_comm (2 ^ k)] at rest
      exact_mod_cast rest
    have nonneg : (0 : ℚ) ≤ r := Nat.cast_nonneg r
    have unit : (0 : ℚ) < 2 ^ k := by positivity
    rw [zpow_neg, zpow_natCast, ← div_eq_mul_inv, pow_succ, le_div_iff₀ (by positivity), div_lt_iff₀ (by positivity)]
    constructor <;> linarith

/-! ### Words -/

def IsWord (n : ℤ) : Prop := minWord ≤ n ∧ n ≤ maxWord

theorem IsWord.natAbs_le {n : ℤ} (word : IsWord n) : n.natAbs ≤ 9223372036854775808 := by
  unfold IsWord minWord maxWord at word
  omega

end RetroScript.Number
