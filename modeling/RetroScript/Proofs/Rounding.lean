import RetroScript.Decimal.Shortest
import RetroScript.Decimal.Reader
import RetroScript.Proofs.FloatBits

/-!
# Decimals are read correctly rounded

The arithmetic keeps, of the digits it drops, one bit and whether more were nonzero (`Represents`).
That is enough to round to the nearest number: `read_scaled` says that a decimal is read as the number
`m · 2 ^ q` if it lies in the interval of that number.
-/

namespace RetroScript.Number

open Float.Model (UnpackedFloat)
open Float.Model.UnpackedFloat
open Float.Model.Format (binary64)

/-! ### A mantissa with its residual bits -/

/-- The mantissa in halves, the round bit counted in. -/
def halves (em : ExtendedMantissa) : Nat := 2 * em.mantissa + em.roundBit.toNat

/-- The numbers that a mantissa with its residual bits stands for. -/
def Represents (em : ExtendedMantissa) (x : ℚ) : Prop :=
  if em.stickyBit then halves em < 2 * x ∧ 2 * x < halves em + 1 else 2 * x = halves em

theorem halves_shiftRightOne (em : ExtendedMantissa) : halves em.shiftRightOne = em.mantissa := by
  rcases Nat.mod_two_eq_zero_or_one em.mantissa with parity | parity
  · simp only [halves, ExtendedMantissa.shiftRightOne, parity, bne_self_eq_false, Bool.toNat_false]
    omega
  · simp only [halves, ExtendedMantissa.shiftRightOne, parity, Nat.reduceBneDiff, Bool.toNat_true]
    omega

theorem Represents.floor {em : ExtendedMantissa} {x : ℚ} (rep : Represents em x) :
    (em.mantissa : ℚ) ≤ x ∧ x < em.mantissa + 1 := by
  have bit : (em.roundBit.toNat : ℚ) = 0 ∨ (em.roundBit.toNat : ℚ) = 1 := by
    cases em.roundBit <;> simp
  unfold Represents halves at rep
  push_cast at rep
  split at rep <;> rcases bit with bit | bit <;> rw [bit] at rep <;> constructor <;> linarith

theorem Represents.shiftRightOne {em : ExtendedMantissa} {x : ℚ} (rep : Represents em x) :
    Represents em.shiftRightOne (x / 2) := by
  have floor := rep.floor
  have twice : 2 * (x / 2) = x := by ring
  unfold Represents
  rw [halves_shiftRightOne, twice]
  unfold Represents halves at rep
  push_cast at rep
  cases round : em.roundBit <;> cases sticky : em.stickyBit <;>
    simp only [round, sticky, Bool.toNat_false, Bool.toNat_true, Bool.false_eq_true, if_true, if_false,
      Nat.cast_zero, Nat.cast_one] at rep <;>
    simp only [ExtendedMantissa.shiftRightOne, round, sticky, Bool.or_self, Bool.or_true, Bool.or_false,
      Bool.false_eq_true, if_true, if_false]
  · linarith
  · exact ⟨by linarith, by linarith⟩
  · exact ⟨by linarith, by linarith⟩
  · exact ⟨by linarith, by linarith⟩

theorem Represents.shiftRight {em : ExtendedMantissa} {x : ℚ} (rep : Represents em x) (n : ℕ) :
    Represents (em >>> n) (x / 2 ^ n) := by
  change Represents (n.repeat ExtendedMantissa.shiftRightOne em) _
  induction n with
  | zero => simpa [Nat.repeat] using rep
  | succ n ih =>
    rw [Nat.repeat, pow_succ, ← div_div]
    exact ih.shiftRightOne

/-- What is nearest to `M`, or half-way while `M` is even, rounds to `M`. -/
theorem Represents.rounded {em : ExtendedMantissa} {x : ℚ} {M : ℕ} (rep : Represents em x)
    (low : (M : ℚ) - 1 / 2 ≤ x) (high : x ≤ M + 1 / 2)
    (odd : M % 2 = 1 → (M : ℚ) - 1 / 2 < x ∧ x < M + 1 / 2) : em.roundedMantissa = M := by
  obtain ⟨m, round, sticky⟩ := em
  have same : halves ⟨m, round, sticky⟩ = 2 * m + round.toNat := rfl
  unfold Represents at rep
  rw [same] at rep
  cases sticky with
  | true =>
    obtain ⟨above, below⟩ := rep
    have upper : 2 * m + round.toNat < 2 * M + 1 := by
      have : ((2 * m + round.toNat : ℕ) : ℚ) < 2 * M + 1 := by linarith
      exact_mod_cast this
    have lower : 2 * M < 2 * m + round.toNat + 2 := by
      have : (2 * M : ℚ) < (2 * m + round.toNat : ℕ) + 2 := by linarith
      exact_mod_cast this
    cases round with
    | false =>
      change m = M
      simp only [Bool.toNat_false] at upper lower
      omega
    | true =>
      change m + 1 = M
      simp only [Bool.toNat_true] at upper lower
      omega
  | false =>
    have exactly : 2 * x = ((2 * m + round.toNat : ℕ) : ℚ) := rep
    have upper : 2 * m + round.toNat ≤ 2 * M + 1 := by
      have : ((2 * m + round.toNat : ℕ) : ℚ) ≤ 2 * M + 1 := by linarith
      exact_mod_cast this
    have lower : 2 * M ≤ 2 * m + round.toNat + 1 := by
      have : (2 * M : ℚ) ≤ (2 * m + round.toNat : ℕ) + 1 := by linarith
      exact_mod_cast this
    have inside : M % 2 = 1 → 2 * M < 2 * m + round.toNat + 1 ∧ 2 * m + round.toNat < 2 * M + 1 := by
      intro parity
      obtain ⟨above, below⟩ := odd parity
      have above : (2 * M : ℚ) < (2 * m + round.toNat : ℕ) + 1 := by linarith
      have below : ((2 * m + round.toNat : ℕ) : ℚ) < 2 * M + 1 := by linarith
      exact ⟨by exact_mod_cast above, by exact_mod_cast below⟩
    cases round with
    | false =>
      change m = M
      simp only [Bool.toNat_false] at upper lower
      omega
    | true =>
      change m + m % 2 = M
      simp only [Bool.toNat_true] at upper lower inside
      omega


/-! ### Rounding to a canonical number -/

/-- The numbers nearest to `m · 2 ^ q`. Half-way counts while `m` is even; the gap below a power of
two is half the gap above. -/
structure Rounds (m : ℕ) (q : ℤ) (v : ℚ) : Prop where
  low : ((m : ℚ) - Decimal.lowerGap m q / 4) * 2 ^ q ≤ v
  high : v ≤ ((m : ℚ) + 1 / 2) * 2 ^ q
  odd : m % 2 = 1 → ((m : ℚ) - Decimal.lowerGap m q / 4) * 2 ^ q < v ∧ v < ((m : ℚ) + 1 / 2) * 2 ^ q

variable {m : ℕ} {q : ℤ} {v : ℚ}

theorem lowerGap_le (m : ℕ) (q : ℤ) : (Decimal.lowerGap m q : ℚ) / 4 ≤ 1 / 2 := by
  unfold Decimal.lowerGap
  split <;> norm_num

/-- The numbers nearest to `m · 2 ^ q`, in units of `2 ^ q`. -/
theorem Rounds.scaled (rounds : Rounds m q v) :
    (m : ℚ) - Decimal.lowerGap m q / 4 ≤ v / 2 ^ q ∧ v / 2 ^ q ≤ m + 1 / 2 ∧
      (m % 2 = 1 → (m : ℚ) - Decimal.lowerGap m q / 4 < v / 2 ^ q ∧ v / 2 ^ q < m + 1 / 2) := by
  have unit : (0 : ℚ) < 2 ^ q := by positivity
  refine ⟨(le_div_iff₀ unit).mpr rounds.low, (div_le_iff₀ unit).mpr rounds.high, fun parity => ?_⟩
  obtain ⟨above, below⟩ := rounds.odd parity
  exact ⟨(lt_div_iff₀ unit).mpr above, (div_lt_iff₀ unit).mpr below⟩

/-- The exponent at which a number nearest to `m · 2 ^ q` has fifty-three bits is `q`, but for the
numbers just below a power of two. -/
theorem Rounds.exponent (canonical : Canonical m q) (rounds : Rounds m q v) {t : ℤ} (least : -1074 ≤ t)
    (small : v / 2 ^ t < 9007199254740992) (full : t = -1074 ∨ 4503599627370496 ≤ v / 2 ^ t) :
    t = q ∨ (t + 1 = q ∧ m = 4503599627370496) := by
  obtain ⟨low, high, -⟩ := rounds.scaled
  have gap := lowerGap_le m q
  have top : (m : ℚ) ≤ 9007199254740991 := by
    have := canonical.small
    have : m ≤ 9007199254740991 := by omega
    exact_mod_cast this
  have shift : v / 2 ^ t = v / 2 ^ q * 2 ^ (q - t) := by
    rw [zpow_sub₀ (by norm_num)]
    field_simp
  generalize v / 2 ^ t = y at *
  generalize v / 2 ^ q = z at *
  rcases lt_trichotomy t q with less | same | more
  · have normal : 4503599627370496 ≤ m := by
      rcases canonical.full with normal | least'
      · exact normal
      · omega
    have bottom : (4503599627370496 : ℚ) ≤ m := by exact_mod_cast normal
    by_cases one : t + 1 = q
    · refine .inr ⟨one, ?_⟩
      have double : y = z * 2 := by
        rw [shift, ← one]
        norm_num
      by_contra other
      have : (4503599627370497 : ℚ) ≤ m := by
        have : 4503599627370497 ≤ m := by omega
        exact_mod_cast this
      linarith
    · exfalso
      have scale : (4 : ℚ) ≤ 2 ^ (q - t) := by
        calc (4 : ℚ) = 2 ^ (2 : ℤ) := by norm_num
          _ ≤ 2 ^ (q - t) := zpow_le_zpow_right₀ (by norm_num) (by omega)
      have : z * 4 ≤ y := by
        rw [shift]
        exact mul_le_mul_of_nonneg_left scale (by linarith)
      linarith
  · exact .inl same
  · exfalso
    have normal : 4503599627370496 ≤ y := by
      rcases full with least' | normal
      · have := canonical.least
        omega
      · exact normal
    have scale : (2 : ℚ) ^ (q - t) ≤ 1 / 2 := by
      calc (2 : ℚ) ^ (q - t) ≤ 2 ^ (-1 : ℤ) := zpow_le_zpow_right₀ (by norm_num) (by omega)
        _ = 1 / 2 := by norm_num
    have positive : 0 ≤ z := by
      by_contra negative
      have : z * 2 ^ (q - t) ≤ 0 := mul_nonpos_of_nonpos_of_nonneg (by linarith) (by positivity)
      linarith
    have : y ≤ z * (1 / 2) := by
      rw [shift]
      exact mul_le_mul_of_nonneg_left scale positive
    linarith


/-- The exponent that a mantissa and an exponent are brought to. -/
def target (Q : ℕ) (E : ℤ) : ℤ := max (Q.log2 + 1 + E - 53) (-1074)

theorem shiftToTargetExponent_eq (Q : ℕ) (E : ℤ) (acc : Accuracy) :
    shiftToTargetExponent binary64 Q E acc =
      (ExtendedMantissa.ofMantissaAndAccuracy Q acc >>> (target Q E - E).toNat,
        E + (target Q E - E).toNat) := rfl

theorem target_of_small {M : ℕ} {t : ℤ} (small : M < 9007199254740992) (least : -1074 ≤ t) :
    target M t ≤ t := by
  have : M.log2 < 53 := by
    by_cases zero : M = 0
    · rw [zero]
      decide
    · exact (Nat.log2_lt zero).mpr small
  unfold target
  omega

/-- At the target exponent a number has at most fifty-three bits, and fifty-three above the least
exponent. -/
theorem bits_at_target {Q : ℕ} {E : ℤ} (floor : (Q : ℚ) ≤ v / 2 ^ E ∧ v / 2 ^ E < Q + 1)
    (fine : E ≤ target Q E) :
    v / 2 ^ target Q E < 9007199254740992 ∧
      (target Q E = -1074 ∨ 4503599627370496 ≤ v / 2 ^ target Q E) := by
  have shift : v / 2 ^ target Q E = v / 2 ^ E / 2 ^ (target Q E - E) := by
    rw [zpow_sub₀ (by norm_num)]
    field_simp
  have whole : (Q : ℚ) + 1 ≤ 2 ^ (Q.log2 + 1) := by
    have : Q + 1 ≤ 2 ^ (Q.log2 + 1) := Nat.lt_log2_self
    exact_mod_cast this
  rw [shift]
  refine ⟨?_, ?_⟩
  · rw [div_lt_iff₀ (by positivity)]
    calc v / 2 ^ E < Q + 1 := floor.2
      _ ≤ 2 ^ (Q.log2 + 1) := whole
      _ = (2 : ℚ) ^ ((Q.log2 : ℤ) + 1) := by norm_cast
      _ ≤ 2 ^ (53 + (target Q E - E)) := zpow_le_zpow_right₀ (by norm_num) (by unfold target; omega)
      _ = 9007199254740992 * 2 ^ (target Q E - E) := by rw [zpow_add₀ (by norm_num)]; norm_num
  · by_cases least : target Q E = -1074
    · exact .inl least
    · refine .inr ?_
      have exact' : target Q E = Q.log2 + 1 + E - 53 := by unfold target at least ⊢; omega
      have nonzero : Q ≠ 0 := by
        rintro rfl
        simp at exact'
        omega
      rw [le_div_iff₀ (by positivity)]
      calc (4503599627370496 : ℚ) * 2 ^ (target Q E - E) = 2 ^ (52 + (target Q E - E)) := by
            rw [zpow_add₀ (by norm_num)]; norm_num
        _ = (2 : ℚ) ^ (Q.log2 : ℤ) := by congr 1; omega
        _ = ((2 ^ Q.log2 : ℕ) : ℚ) := by norm_cast
        _ ≤ Q := by exact_mod_cast Nat.log2_self_le nonzero
        _ ≤ v / 2 ^ E := floor.1

theorem mantissa_ofMantissaAndAccuracy (Q : ℕ) (acc : Accuracy) :
    (ExtendedMantissa.ofMantissaAndAccuracy Q acc).mantissa = Q := by
  unfold ExtendedMantissa.ofMantissaAndAccuracy
  split <;> rfl

theorem shift_small {M : ℕ} {t : ℤ} (small : M < 9007199254740992) (least : -1074 ≤ t) :
    shiftToTargetExponent binary64 M t .exact = (⟨M, false, false⟩, t) := by
  have stays : (target M t - t).toNat = 0 := by
    have := target_of_small small least
    omega
  rw [shiftToTargetExponent_eq, stays]
  exact Prod.ext rfl (Int.add_zero t)

/-- A fifty-fourth bit is shifted out again. -/
theorem shift_carry {t : ℤ} (least : -1074 ≤ t) :
    shiftToTargetExponent binary64 9007199254740992 t .exact = (⟨4503599627370496, false, false⟩, t + 1) := by
  have one : (target 9007199254740992 t - t).toNat = 1 := by
    have log : Nat.log2 9007199254740992 = 53 := by decide
    unfold target
    rw [log]
    omega
  rw [shiftToTargetExponent_eq, one]
  rfl

theorem roundWithAccuracy_eq (canonical : Canonical m q) (positive : 0 < m) (rounds : Rounds m q v)
    {Q : ℕ} {E : ℤ} {acc : Accuracy}
    (rep : Represents (ExtendedMantissa.ofMantissaAndAccuracy Q acc) (v / 2 ^ E))
    (fine : E ≤ target Q E) (s : Sign) :
    roundWithAccuracy binary64 s Q E acc = .finite s m q positive := by
  have floor := rep.floor
  rw [mantissa_ofMantissaAndAccuracy] at floor
  obtain ⟨small, full⟩ := bits_at_target floor fine
  have least : -1074 ≤ target Q E := le_max_right _ _
  have exponent : E + ((target Q E - E).toNat : ℤ) = target Q E := by omega
  have shifted : Represents (ExtendedMantissa.ofMantissaAndAccuracy Q acc >>> (target Q E - E).toNat)
      (v / 2 ^ target Q E) := by
    have := rep.shiftRight (target Q E - E).toNat
    rwa [div_div, ← zpow_natCast, ← zpow_add₀ (by norm_num), exponent] at this
  obtain ⟨low, high, odd⟩ := rounds.scaled
  have gap := lowerGap_le m q
  unfold roundWithAccuracy
  rw [shiftToTargetExponent_eq, exponent]
  dsimp only
  rcases rounds.exponent canonical least small full with same | ⟨next, power⟩
  · rw [same] at shifted ⊢
    have rounded := shifted.rounded (M := m) (by linarith) high fun parity =>
      ⟨by have := (odd parity).1; linarith, (odd parity).2⟩
    rw [rounded, shift_small canonical.small canonical.least]
    exact dif_neg (Nat.pos_iff_ne_zero.mp positive)
  · -- the number lies just below the power of two: rounding carries into a fifty-fourth bit
    subst power
    have half : Decimal.lowerGap 4503599627370496 q = 1 := if_pos ⟨rfl, by omega⟩
    have double : v / 2 ^ target Q E = 2 * (v / 2 ^ q) := by
      rw [← next, zpow_add₀ (by norm_num), zpow_one]
      field_simp
    rw [half] at low
    push_cast at low
    have rounded : ExtendedMantissa.roundedMantissa
        (ExtendedMantissa.ofMantissaAndAccuracy Q acc >>> (target Q E - E).toNat) = 9007199254740992 := by
      refine shifted.rounded ?_ ?_ (by simp)
      · rw [double]
        push_cast
        linarith
      · push_cast
        linarith
    rw [rounded, shift_carry least, next]
    rfl

/-! ### Products and quotients -/

theorem mul_eq (canonical : Canonical m q) (positive : 0 < m) {m₁ m₂ : ℕ} {e₁ e₂ : ℤ} (h₁ : 0 < m₁)
    (h₂ : 0 < m₂) (rounds : Rounds m q ((m₁ : ℚ) * 2 ^ e₁ * (m₂ * 2 ^ e₂)))
    (fine : e₁ + e₂ ≤ target (m₁ * m₂) (e₁ + e₂)) :
    UnpackedFloat.mul binary64 (.finite .positive m₁ e₁ h₁) (.finite .positive m₂ e₂ h₂) =
      .finite .positive m q positive := by
  refine roundWithAccuracy_eq canonical positive rounds ?_ fine .positive
  change 2 * _ = ((2 * (m₁ * m₂) + 0 : ℕ) : ℚ)
  rw [zpow_add₀ (by norm_num)]
  field_simp
  push_cast
  ring

theorem represents_fraction (M d : ℕ) (positive : 0 < d) :
    Represents (ExtendedMantissa.ofMantissaAndAccuracy (M / d) (accuracyOfFraction (M % d) d))
      ((M : ℚ) / d) := by
  have whole : ((d * (M / d) + M % d : ℕ) : ℚ) = M := by exact_mod_cast Nat.div_add_mod M d
  have less : ((M % d : ℕ) : ℚ) < d := by exact_mod_cast Nat.mod_lt M positive
  have unit : (0 : ℚ) < d := by exact_mod_cast positive
  have value : (M : ℚ) / d = (M / d : ℕ) + ((M % d : ℕ) : ℚ) / d := by
    rw [← whole]
    push_cast
    field_simp
  rw [value]
  unfold accuracyOfFraction
  split
  · next zero =>
    change 2 * _ = ((2 * (M / d) + 0 : ℕ) : ℚ)
    rw [zero]
    push_cast
    ring
  · next nonzero =>
    have some : (0 : ℚ) < (M % d : ℕ) := by exact_mod_cast Nat.pos_of_ne_zero nonzero
    have above : 0 < ((M % d : ℕ) : ℚ) / d := div_pos some unit
    have below : ((M % d : ℕ) : ℚ) / d < 1 := (div_lt_one unit).mpr less
    cases order : compare (2 * (M % d)) d with
    | lt =>
      have : (2 * (M % d : ℕ) : ℚ) < d := by exact_mod_cast Nat.compare_eq_lt.mp order
      have half : ((M % d : ℕ) : ℚ) / d < 1 / 2 := by rw [div_lt_div_iff₀ unit (by norm_num)]; linarith
      change ((2 * (M / d) + 0 : ℕ) : ℚ) < _ ∧ _ < ((2 * (M / d) + 0 : ℕ) : ℚ) + 1
      push_cast
      constructor <;> linarith
    | eq =>
      have : (2 * (M % d : ℕ) : ℚ) = d := by exact_mod_cast Nat.compare_eq_eq.mp order
      have half : ((M % d : ℕ) : ℚ) / d = 1 / 2 := by rw [div_eq_div_iff unit.ne' (by norm_num)]; linarith
      change 2 * _ = ((2 * (M / d) + 1 : ℕ) : ℚ)
      push_cast
      linarith
    | gt =>
      have : (d : ℚ) < 2 * (M % d : ℕ) := by exact_mod_cast Nat.compare_eq_gt.mp order
      have half : 1 / 2 < ((M % d : ℕ) : ℚ) / d := by rw [div_lt_div_iff₀ (by norm_num) unit]; linarith
      change ((2 * (M / d) + 1 : ℕ) : ℚ) < _ ∧ _ < ((2 * (M / d) + 1 : ℕ) : ℚ) + 1
      push_cast
      constructor <;> linarith

theorem div_eq (canonical : Canonical m q) (positive : 0 < m) {m₁ m₂ : ℕ} {e₁ e₂ : ℤ} (h₁ : 0 < m₁)
    (h₂ : 0 < m₂) (rounds : Rounds m q ((m₁ : ℚ) * 2 ^ e₁ / (m₂ * 2 ^ e₂))) :
    UnpackedFloat.div binary64 (.finite .positive m₁ e₁ h₁) (.finite .positive m₂ e₂ h₂) =
      .finite .positive m q positive := by
  let T : ℤ := max ((m₁.log2 + 1 + e₁) - (m₂.log2 + 1 + e₂) - 53) (-1074)
  let E : ℤ := min (e₁ - e₂) T
  let k : ℕ := (e₁ - e₂ - E).toNat
  change roundWithAccuracy binary64 .positive ((m₁ <<< k) / m₂) E
    (accuracyOfFraction ((m₁ <<< k) % m₂) m₂) = _
  have exponent : (k : ℤ) = e₁ - e₂ - E := by omega
  refine roundWithAccuracy_eq canonical positive rounds ?_ ?_ .positive
  · have value : (m₁ : ℚ) * 2 ^ e₁ / (m₂ * 2 ^ e₂) / 2 ^ E = ((m₁ <<< k : ℕ) : ℚ) / m₂ := by
      rw [Nat.shiftLeft_eq]
      push_cast
      rw [← zpow_natCast, exponent, zpow_sub₀ (by norm_num), zpow_sub₀ (by norm_num)]
      field_simp
    rw [value]
    exact represents_fraction _ _ h₂
  · -- above the least exponent the quotient has fifty-three bits
    by_cases least : E ≤ -1074
    · exact le_trans least (le_max_right _ _)
    · have enough : m₂.log2 + 1 + 52 ≤ m₁.log2 + k := by omega
      have long : 2 ^ 52 ≤ (m₁ <<< k) / m₂ := by
        rw [Nat.le_div_iff_mul_le h₂, Nat.shiftLeft_eq]
        calc 2 ^ 52 * m₂ ≤ 2 ^ 52 * 2 ^ (m₂.log2 + 1) :=
              Nat.mul_le_mul_left _ (Nat.le_of_lt Nat.lt_log2_self)
          _ = 2 ^ (m₂.log2 + 1 + 52) := by rw [← Nat.pow_add, Nat.add_comm]
          _ ≤ 2 ^ (m₁.log2 + k) := Nat.pow_le_pow_right (by decide) enough
          _ = 2 ^ m₁.log2 * 2 ^ k := Nat.pow_add ..
          _ ≤ m₁ * 2 ^ k := Nat.mul_le_mul_right _ (Nat.log2_self_le (by omega))
      have bits : 52 ≤ ((m₁ <<< k) / m₂).log2 := (Nat.le_log2 (by omega)).mpr long
      unfold target
      omega

/-! ### Decimals -/

theorem Rounds.positive (positive : 0 < m) (rounds : Rounds m q v) : 0 < v := by
  have gap := lowerGap_le m q
  have one : (1 : ℚ) ≤ m := by exact_mod_cast positive
  have unit : (0 : ℚ) < 2 ^ q := by positivity
  refine lt_of_lt_of_le ?_ rounds.low
  exact mul_pos (by linarith) unit

/-- A number as the arithmetic has it: positive with fifty-three bits. -/
def Holds (x : Float) (v : ℚ) : Prop :=
  ∃ (m₁ : ℕ) (e₁ : ℤ) (h : 0 < m₁), x.toModel.unpack = .finite .positive m₁ e₁ h ∧
    4503599627370496 ≤ m₁ ∧ (m₁ : ℚ) * 2 ^ e₁ = v

theorem rounds_self (m : ℕ) (q : ℤ) : Rounds m q (m * 2 ^ q) := by
  have unit : (0 : ℚ) < 2 ^ q := by positivity
  have gap : (0 : ℚ) < Decimal.lowerGap m q := by
    unfold Decimal.lowerGap
    split <;> norm_num
  refine ⟨?_, ?_, fun _ => ⟨?_, ?_⟩⟩ <;> nlinarith

theorem holds_ofNat {n : ℕ} (positive : 0 < n) (small : n < 9007199254740992) :
    Holds n.toUInt64.toFloat n := by
  have log : n.log2 < 53 := (Nat.log2_lt (by omega)).mpr small
  have lower : 2 ^ n.log2 ≤ n := Nat.log2_self_le (by omega)
  have upper : n < 2 ^ (n.log2 + 1) := Nat.lt_log2_self
  have least : target n 0 = n.log2 - 52 := by unfold target; omega
  let M := n <<< (52 - n.log2)
  have value : M = n * 2 ^ (52 - n.log2) := Nat.shiftLeft_eq ..
  have bottom : 2 ^ 52 ≤ M := by
    calc 2 ^ 52 = 2 ^ n.log2 * 2 ^ (52 - n.log2) := by rw [← Nat.pow_add]; congr 1; omega
      _ ≤ M := by rw [value]; exact Nat.mul_le_mul_right _ lower
  have top : M < 2 ^ 53 := by
    calc M < 2 ^ (n.log2 + 1) * 2 ^ (52 - n.log2) := by
          rw [value]; exact Nat.mul_lt_mul_of_pos_right upper (by positivity)
      _ = 2 ^ 53 := by rw [← Nat.pow_add]; congr 1; omega
  have canonical : Canonical M (n.log2 - 52) :=
    ⟨by omega, by omega, by omega, .inl (by omega)⟩
  have same : (M : ℚ) * 2 ^ ((n.log2 : ℤ) - 52) = n := by
    have cancel : ((52 - n.log2 : ℕ) : ℤ) + ((n.log2 : ℤ) - 52) = 0 := by omega
    rw [value]
    push_cast
    rw [← zpow_natCast, mul_assoc, ← zpow_add₀ (by norm_num), cancel, zpow_zero, mul_one]
  have rounded : UnpackedFloat.ofNat binary64 n = .finite .positive M (n.log2 - 52) (by omega) := by
    have order : compare (n : ℤ) 0 = .gt := Int.compare_eq_gt.mpr (by omega)
    have shift : (0 - target n 0).toNat = 52 - n.log2 := by omega
    change UnpackedFloat.normalize binary64 (n : ℤ) 0 .positive = _
    unfold UnpackedFloat.normalize
    rw [order, Int.toNat_natCast]
    change roundWithAccuracy binary64 .positive (n <<< (0 - target n 0).toNat)
      (0 - ((0 - target n 0).toNat : ℤ)) .exact = _
    have exponent : (0 : ℤ) - ((52 - n.log2 : ℕ) : ℤ) = n.log2 - 52 := by omega
    rw [shift, exponent]
    refine roundWithAccuracy_eq canonical (by omega) (rounds_self M (n.log2 - 52)) ?_ ?_ .positive
    · change 2 * _ = ((2 * M + 0 : ℕ) : ℚ)
      field_simp
      push_cast
      ring
    · have bits : 52 ≤ M.log2 := (Nat.le_log2 (by omega)).mpr bottom
      change _ ≤ target M (n.log2 - 52)
      unfold target
      omega
  have word : n.toUInt64.toNat = n := Nat.mod_eq_of_lt (by omega)
  refine ⟨M, n.log2 - 52, by omega, ?_, by omega, same⟩
  have proper : (Reading.finite false M (n.log2 - 52)).Proper := canonical
  have unpacked : (Reading.finite false M (n.log2 - 52)).unpacked =
      .finite .positive M (n.log2 - 52) (by omega) := by
    simp only [Reading.unpacked]
    rw [dif_neg (by omega)]
    rfl
  have model : n.toUInt64.toFloat =
      Float.ofModel (Float.Model.pack (UnpackedFloat.ofNat binary64 n.toUInt64.toNat)) := rfl
  rw [unpack_eq, model, word, rounded, ← unpacked, read_pack proper]

/-- The arithmetic result of two numbers is the number they round to. -/
theorem read_finite (canonical : Canonical m q) (positive : 0 < m) :
    read (Float.ofModel (Float.Model.pack (.finite .positive m q positive))) = .finite false m q := by
  have proper : (Reading.finite false m q).Proper := canonical
  have unpacked : (Reading.finite false m q).unpacked = .finite .positive m q positive := by
    simp only [Reading.unpacked]
    rw [dif_neg (by omega)]
    rfl
  rw [← unpacked, read_pack proper]

/-! The powers of ten up to the twenty-second have at most fifty-three significant bits. -/

theorem read_powerOfTen : ∀ e : Fin 23,
    read Float.exactlyRepresentablePowersOfTen[e] = .finite false
      (10 ^ e.val * 2 ^ 52 / 2 ^ (10 ^ e.val).log2) (((10 ^ e.val).log2 : ℤ) - 52) := by
  decide +kernel

theorem powerOfTen_exact : ∀ e : Fin 23,
    10 ^ e.val * 2 ^ 52 / 2 ^ (10 ^ e.val).log2 * 2 ^ (10 ^ e.val).log2 = 10 ^ e.val * 2 ^ 52 ∧
      4503599627370496 ≤ 10 ^ e.val * 2 ^ 52 / 2 ^ (10 ^ e.val).log2 := by
  decide +kernel

theorem holds_powerOfTen (e : Fin 23) : Holds Float.exactlyRepresentablePowersOfTen[e] (10 ^ e.val) := by
  obtain ⟨whole, bottom⟩ := powerOfTen_exact e
  have unpacked := unpack_eq Float.exactlyRepresentablePowersOfTen[e]
  rw [read_powerOfTen e] at unpacked
  generalize 10 ^ e.val * 2 ^ 52 / 2 ^ (10 ^ e.val).log2 = M at *
  generalize (10 ^ e.val).log2 = L at *
  refine ⟨M, L - 52, by omega, ?_, bottom, ?_⟩
  · rw [unpacked]
    simp only [Reading.unpacked]
    rw [dif_neg (by omega)]
    rfl
  · have whole : (M : ℚ) * 2 ^ L = 10 ^ e.val * 2 ^ 52 := by exact_mod_cast whole
    rw [zpow_sub₀ (by norm_num), zpow_natCast, ← mul_div_assoc, whole]
    norm_num

theorem read_mul (canonical : Canonical m q) (positive : 0 < m) {x y : Float} {u w : ℚ}
    (left : Holds x u) (right : Holds y w) (rounds : Rounds m q (u * w)) :
    read (x * y) = .finite false m q := by
  obtain ⟨m₁, e₁, h₁, left, long₁, rfl⟩ := left
  obtain ⟨m₂, e₂, h₂, right, long₂, rfl⟩ := right
  have bits : 52 ≤ (m₁ * m₂).log2 := by
    refine (Nat.le_log2 (by positivity)).mpr ?_
    calc 2 ^ 52 ≤ m₁ * 1 := by omega
      _ ≤ m₁ * m₂ := Nat.mul_le_mul_left _ h₂
  have fine : e₁ + e₂ ≤ target (m₁ * m₂) (e₁ + e₂) := by
    unfold target
    omega
  change read (Float.ofModel (Float.Model.pack
    (UnpackedFloat.mul binary64 x.toModel.unpack y.toModel.unpack))) = _
  rw [left, right, mul_eq canonical positive h₁ h₂ rounds fine, read_finite canonical]

theorem read_div (canonical : Canonical m q) (positive : 0 < m) {x y : Float} {u w : ℚ}
    (left : Holds x u) (right : Holds y w) (rounds : Rounds m q (u / w)) :
    read (x / y) = .finite false m q := by
  obtain ⟨m₁, e₁, h₁, left, -, rfl⟩ := left
  obtain ⟨m₂, e₂, h₂, right, -, rfl⟩ := right
  change read (Float.ofModel (Float.Model.pack
    (UnpackedFloat.div binary64 x.toModel.unpack y.toModel.unpack))) = _
  rw [left, right, div_eq canonical positive h₁ h₂ rounds, read_finite canonical]

/-! The bounds that the arithmetic puts on an exponent of ten are never met by a decimal that rounds
to a number. -/

theorem Rounds.lt_top (canonical : Canonical m q) (rounds : Rounds m q v) : v < 2 ^ (1024 : ℤ) := by
  have top : (m : ℚ) + 1 / 2 < 2 ^ (53 : ℤ) := by
    have : m ≤ 9007199254740991 := by have := canonical.small; omega
    have : (m : ℚ) ≤ 9007199254740991 := by exact_mod_cast this
    norm_num
    linarith
  calc v ≤ (m + 1 / 2) * 2 ^ q := rounds.high
    _ < 2 ^ (53 : ℤ) * 2 ^ q := mul_lt_mul_of_pos_right top (by positivity)
    _ = (2 : ℚ) ^ (53 + q) := (zpow_add₀ (by norm_num) _ _).symm
    _ ≤ 2 ^ (1024 : ℤ) := zpow_le_zpow_right₀ (by norm_num) (by have := canonical.greatest; omega)

theorem Rounds.gt_bottom (canonical : Canonical m q) (positive : 0 < m) (rounds : Rounds m q v) :
    (2 : ℚ) ^ (-1075 : ℤ) ≤ v := by
  have gap := lowerGap_le m q
  have one : (1 : ℚ) ≤ m := by exact_mod_cast positive
  calc (2 : ℚ) ^ (-1075 : ℤ) ≤ 2 ^ (-1 + q) :=
        zpow_le_zpow_right₀ (by norm_num) (by have := canonical.least; omega)
    _ = 1 / 2 * 2 ^ q := by rw [zpow_add₀ (by norm_num)]; norm_num
    _ ≤ (m - Decimal.lowerGap m q / 4) * 2 ^ q := by gcongr; linarith
    _ ≤ v := rounds.low

theorem ofScientific_eq (canonical : Canonical m q) (positive : 0 < m) {n : ℕ} {e : ℤ}
    (rounds : Rounds m q (n * 10 ^ e)) :
    UnpackedFloat.ofScientific binary64 n e = .finite .positive m q positive := by
  have some : n ≠ 0 := by
    rintro rfl
    have := rounds.positive positive
    simp at this
  have one : (1 : ℚ) ≤ n := by exact_mod_cast Nat.pos_of_ne_zero some
  have notHuge : ¬ e > 2 ^ binary64.exponentBits := by
    intro huge
    have huge : 2048 < e := huge
    have := rounds.lt_top canonical
    have : (2 : ℚ) ^ (1024 : ℤ) ≤ n * 10 ^ e := by
      calc (2 : ℚ) ^ (1024 : ℤ) ≤ 2 ^ e := zpow_le_zpow_right₀ (by norm_num) (by omega)
        _ ≤ 10 ^ e := zpow_le_zpow_left₀ (by omega) (by norm_num) (by norm_num)
        _ = 1 * 10 ^ e := (one_mul _).symm
        _ ≤ n * 10 ^ e := by gcongr
    linarith
  have notTiny : ¬ e < -((2 ^ binary64.exponentBits : ℤ) + n.log2) := by
    intro tiny
    have tiny : e < -(2048 + (n.log2 : ℤ)) := tiny
    have := rounds.gt_bottom canonical positive
    have below : (n : ℚ) < 2 ^ ((n.log2 : ℤ) + 1) := by
      have : n < 2 ^ (n.log2 + 1) := Nat.lt_log2_self
      exact_mod_cast this
    have : (n : ℚ) * 10 ^ e < 2 ^ (-1075 : ℤ) := by
      calc (n : ℚ) * 10 ^ e ≤ n * 2 ^ e := by
            obtain ⟨k, rfl⟩ : ∃ k : ℕ, e = -k := ⟨(-e).toNat, by omega⟩
            rw [zpow_neg, zpow_neg, zpow_natCast, zpow_natCast]
            gcongr
            norm_num
        _ < 2 ^ ((n.log2 : ℤ) + 1) * 2 ^ e := mul_lt_mul_of_pos_right below (by positivity)
        _ = (2 : ℚ) ^ ((n.log2 : ℤ) + 1 + e) := (zpow_add₀ (by norm_num) _ _).symm
        _ ≤ 2 ^ (-1075 : ℤ) := zpow_le_zpow_right₀ (by norm_num) (by omega)
    linarith
  unfold UnpackedFloat.ofScientific
  rw [dif_neg some, if_neg notHuge, if_neg notTiny]
  split
  · next nonneg =>
    have value : ((n <<< binary64.mantissaBits : ℕ) : ℚ) * 2 ^ (-(binary64.mantissaBits : ℤ)) *
        (((10 ^ e.toNat : ℕ) : ℚ) * 2 ^ (0 : ℤ)) = n * 10 ^ e := by
      obtain ⟨k, rfl⟩ : ∃ k : ℕ, e = k := ⟨e.toNat, by omega⟩
      rw [Nat.shiftLeft_eq, zpow_neg, zpow_natCast, zpow_natCast, Int.toNat_natCast]
      push_cast
      field_simp
    rw [← value] at rounds
    refine mul_eq canonical positive _ _ rounds ?_
    have bits : 53 ≤ (n <<< binary64.mantissaBits * 10 ^ e.toNat).log2 := by
      have power : 0 < 10 ^ e.toNat := by positivity
      rw [Nat.shiftLeft_eq]
      refine (Nat.le_log2 (by positivity)).mpr ?_
      calc 2 ^ 53 = 1 * 2 ^ 53 * 1 := by norm_num
        _ ≤ n * 2 ^ 53 * 10 ^ e.toNat := by gcongr <;> omega
    change -53 + 0 ≤ target _ (-53 + 0)
    unfold target
    omega
  · next negative =>
    have value : (n : ℚ) * 2 ^ (0 : ℤ) / (((10 ^ (-e).toNat : ℕ) : ℚ) * 2 ^ (0 : ℤ)) = n * 10 ^ e := by
      obtain ⟨k, rfl⟩ : ∃ k : ℕ, e = -k := ⟨(-e).toNat, by omega⟩
      rw [neg_neg, Int.toNat_natCast, zpow_neg, zpow_natCast]
      push_cast
      field_simp
    rw [← value] at rounds
    exact div_eq canonical positive _ _ rounds

/-- A decimal is read as the number it rounds to. -/
theorem read_scaled (canonical : Canonical m q) (positive : 0 < m) {n : ℕ} {e : ℤ}
    (rounds : Rounds m q (n * 10 ^ e)) : read (Decimal.scaled n e) = .finite false m q := by
  unfold Decimal.scaled Float.ofScientific
  split
  · next short =>
    have some : 0 < n := by
      rcases Nat.eq_zero_or_pos n with rfl | some
      · have := rounds.positive positive
        simp at this
      · exact some
    have left := holds_ofNat some (by omega : n < 9007199254740992)
    have right := holds_powerOfTen ⟨e.natAbs, by omega⟩
    dsimp only
    split
    · next negative =>
      have negative : e < 0 := by simpa using negative
      refine read_div canonical positive left right ?_
      have power : (10 : ℚ) ^ e = (10 ^ e.natAbs)⁻¹ := by
        rw [← zpow_natCast, ← zpow_neg]
        congr 1
        omega
      rwa [power, ← div_eq_mul_inv] at rounds
    · next nonneg =>
      have nonneg : 0 ≤ e := by simpa using nonneg
      refine read_mul canonical positive left right ?_
      have power : (10 : ℚ) ^ e = 10 ^ e.natAbs := by
        rw [← zpow_natCast]
        congr 1
        omega
      rwa [power] at rounds
  · next long =>
    dsimp only
    have same : (if (decide (e < 0)) = true then Int.negOfNat e.natAbs else Int.ofNat e.natAbs) = e := by
      by_cases negative : e < 0
      · rw [if_pos (by simpa using negative), Int.negOfNat_eq]
        change -((e.natAbs : ℕ) : ℤ) = e
        omega
      · rw [if_neg (by simpa using negative)]
        change ((e.natAbs : ℕ) : ℤ) = e
        omega
    rw [same]
    change read (Float.ofModel (Float.Model.pack (UnpackedFloat.ofScientific binary64 n e))) = _
    rw [ofScientific_eq canonical positive rounds, read_finite canonical]

end RetroScript.Number
