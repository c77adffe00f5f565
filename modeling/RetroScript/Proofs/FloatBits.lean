import Mathlib
import RetroScript.Number.Binary

/-!
# Numbers as the arithmetic has them

The arithmetic unpacks its operands, works on sign, mantissa and exponent, and packs the result.
`unpack_eq` and `read_pack` say that this form is the one `read` gives, so a number is determined by
what it is read as. `beq_iff` says when two numbers are equal to the arithmetic.
-/

namespace RetroScript.Number

open Float.Model (UnpackedFloat)
open Float.Model.UnpackedFloat
open Float.Model.Format (binary64)

theorem toNat_packComponents (s : Sign) (e : BitVec 11) (m : BitVec 52) :
    (packComponents binary64 s e m).toNat =
      s.toBitVec.toNat * 9223372036854775808 + e.toNat * 4503599627370496 + m.toNat := by
  have he := e.isLt
  have hm := m.isLt
  unfold packComponents
  rw [BitVec.toNat_append, ← Nat.shiftLeft_add_eq_or_of_lt hm, BitVec.toNat_append,
    ← Nat.shiftLeft_add_eq_or_of_lt he]
  simp only [Nat.shiftLeft_eq]
  omega

theorem toNat_unpackMantissa (b : BitVec 64) :
    (@unpackMantissa binary64 b).toNat = b.toNat % 4503599627370496 := by
  simp [unpackMantissa, BitVec.extractLsb]

theorem toNat_unpackExponent (b : BitVec 64) :
    (@unpackExponent binary64 b).toNat = b.toNat / 4503599627370496 % 2048 := by
  simp [unpackExponent, BitVec.extractLsb, Nat.shiftRight_eq_div_pow]

theorem toNat_unpackSign (b : BitVec 64) :
    (@unpackSign binary64 b).toNat = b.toNat / 9223372036854775808 := by
  have := b.isLt
  rw [UnpackedFloat.unpackSign_def]
  change (BitVec.extractLsb' 63 1 b).toNat = _
  rw [BitVec.extractLsb'_toNat, Nat.shiftRight_eq_div_pow]
  omega

/-! ### Readings -/

def signOf (negative : Bool) : Sign := if negative then .negative else .positive

/-- The form in which the arithmetic takes a number. -/
def Reading.unpacked : Reading → UnpackedFloat
  | .nan => .notANumber
  | .infinite negative => .infinity (signOf negative)
  | .finite negative m q =>
    if h : m = 0 then .zero (signOf negative) else .finite (signOf negative) m q (Nat.pos_of_ne_zero h)

/-- A mantissa and an exponent that a number has: fifty-three bits, fewer only with the least
exponent. -/
structure Canonical (m : Nat) (q : Int) : Prop where
  small : m < 9007199254740992
  least : -1074 ≤ q
  greatest : q ≤ 971
  full : 4503599627370496 ≤ m ∨ q = -1074

def Reading.Proper : Reading → Prop
  | .finite _ m q => Canonical m q
  | _ => True

theorem proper_read (x : Float) : (read x).Proper := by
  unfold read
  dsimp only
  have hbiased : x.toBits.toNat / 4503599627370496 % 2048 < 2048 := Nat.mod_lt _ (by decide)
  have hfraction : x.toBits.toNat % 4503599627370496 < 4503599627370496 := Nat.mod_lt _ (by decide)
  split
  · split <;> trivial
  · split
    · exact ⟨by omega, by omega, by omega, .inr rfl⟩
    · exact ⟨by omega, by omega, by omega, .inl (by omega)⟩

theorem sign_unpackSign (b : BitVec 64) :
    Sign.ofBitVec (@unpackSign binary64 b) = signOf (b.toNat / 9223372036854775808 == 1) := by
  have := b.isLt
  have value := toNat_unpackSign b
  unfold Sign.ofBitVec signOf
  by_cases h : b.toNat / 9223372036854775808 = 1
  · rw [h] at value
    have : @unpackSign binary64 b ≠ 0#1 := by
      intro zero
      rw [zero] at value
      cases value
    simp [h, this]
  · have zero : b.toNat / 9223372036854775808 = 0 := by omega
    rw [zero] at value
    have : @unpackSign binary64 b = 0#1 := BitVec.eq_of_toNat_eq value
    simp [zero, this]

theorem exponent_full_iff (b : BitVec 64) :
    @unpackExponent binary64 b = -1#11 ↔ b.toNat / 4503599627370496 % 2048 = 2047 := by
  rw [← toNat_unpackExponent, ← BitVec.toNat_inj]
  rfl

theorem exponent_zero_iff (b : BitVec 64) :
    @unpackExponent binary64 b = 0#11 ↔ b.toNat / 4503599627370496 % 2048 = 0 := by
  rw [← toNat_unpackExponent, ← BitVec.toNat_inj]
  rfl

theorem mantissa_zero_iff (b : BitVec 64) :
    @unpackMantissa binary64 b = 0#52 ↔ b.toNat % 4503599627370496 = 0 := by
  rw [← toNat_unpackMantissa, ← BitVec.toNat_inj]
  rfl

theorem toNat_implicit (m : BitVec 52) : (1#1 ++ m).toNat = 4503599627370496 + m.toNat := by
  rw [BitVec.toNat_append, ← Nat.shiftLeft_add_eq_or_of_lt m.isLt]
  rfl

theorem unpack_eq (x : Float) : x.toModel.unpack = (read x).unpacked := by
  change UnpackedFloat.unpack binary64 x.toBits.toBitVec = _
  have sign := sign_unpackSign x.toBits.toBitVec
  have mantissa := toNat_unpackMantissa x.toBits.toBitVec
  have exponent := toNat_unpackExponent x.toBits.toBitVec
  unfold UnpackedFloat.unpack read
  simp only [sign]
  by_cases full : x.toBits.toNat / 4503599627370496 % 2048 = 2047
  · rw [if_pos ((exponent_full_iff _).mpr full), if_pos full]
    by_cases fraction : x.toBits.toNat % 4503599627370496 = 0
    · rw [if_pos ((mantissa_zero_iff _).mpr fraction), if_pos fraction]
      rfl
    · rw [if_neg (mt (mantissa_zero_iff _).mp fraction), if_neg fraction]
      rfl
  · rw [if_neg (mt (exponent_full_iff _).mp full), if_neg full]
    by_cases low : x.toBits.toNat / 4503599627370496 % 2048 = 0
    · rw [if_pos ((exponent_zero_iff _).mpr low), if_pos low]
      by_cases fraction : x.toBits.toNat % 4503599627370496 = 0
      · rw [dif_pos ((mantissa_zero_iff _).mpr fraction)]
        simp only [Reading.unpacked, dif_pos fraction]
        rfl
      · rw [dif_neg (mt (mantissa_zero_iff _).mp fraction)]
        simp only [Reading.unpacked, dif_neg fraction, mantissa, exponent]
        congr 1
        change ((x.toBits.toNat / 4503599627370496 % 2048 : Nat) : Int) - (1023 + 52) + 1 = -1074
        rw [low]
        rfl
    · rw [if_neg (mt (exponent_zero_iff _).mp low), if_neg low]
      simp only [Reading.unpacked, toNat_implicit, mantissa, exponent]
      rw [dif_neg (by omega)]
      rfl

/-! ### Packing -/

theorem toNat_signOf (negative : Bool) :
    (signOf negative).toBitVec.toNat = if negative then 1 else 0 := by
  cases negative <;> rfl

/-- Taking a number apart by the value of its bits. -/
theorem read_of_bits {x : Float} {negative : Bool} {biased fraction : Nat}
    (bits : x.toBits.toNat =
      (if negative then 1 else 0) * 9223372036854775808 + biased * 4503599627370496 + fraction)
    (finite : biased < 2047) (small : fraction < 4503599627370496) :
    read x = if biased = 0 then .finite negative fraction (-1074)
      else .finite negative (4503599627370496 + fraction) ((biased : Int) - 1075) := by
  have exponent : x.toBits.toNat / 4503599627370496 % 2048 = biased := by
    rw [bits]
    split <;> omega
  have low : x.toBits.toNat % 4503599627370496 = fraction := by
    rw [bits]
    split <;> omega
  have sign : (x.toBits.toNat / 9223372036854775808 == 1) = negative := by
    rw [bits]
    cases negative
    · simp only [Bool.false_eq_true, if_false, beq_eq_false_iff_ne]
      omega
    · simp only [if_true, beq_iff_eq]
      omega
  unfold read
  simp only [exponent, low, sign]
  rw [if_neg (by omega)]

/-- The bits of a canonical number: with fifty-three bits the first one is left out. -/
theorem toNat_pack {m : Nat} {q : Int} (canonical : Canonical m q) (s : Sign) (positive : 0 < m) :
    (UnpackedFloat.pack binary64 (.finite s m q positive)).toNat = s.toBitVec.toNat * 9223372036854775808 +
      (if 4503599627370496 ≤ m then (q + 1075).toNat * 4503599627370496 + (m - 4503599627370496) else m) := by
  obtain ⟨small, least, greatest, full⟩ := canonical
  have biased : (q + (binary64.exponentBias : Int) + (binary64.mantissaBitsWithoutImplicit : Int)).toNat
      = (q + 1075).toNat := by
    change (q + 1023 + 52).toNat = _
    omega
  have fits : ¬ 2 ^ binary64.exponentBits ≤ (q + 1075).toNat + 1 := by
    change ¬ 2048 ≤ _
    omega
  unfold UnpackedFloat.pack
  simp only [biased, if_neg fits]
  by_cases normal : 4503599627370496 ≤ m
  · have lower : 52 ≤ m.log2 := (Nat.le_log2 (by omega)).mpr normal
    have upper : m.log2 < 53 := (Nat.log2_lt (by omega)).mpr small
    have log : m.log2 + 1 = binary64.mantissaBits := by
      change m.log2 + 1 = 53
      omega
    have fraction : m % 2 ^ 52 = m - 4503599627370496 := by omega
    have exponent : (q + 1075).toNat % 2 ^ 11 = (q + 1075).toNat := Nat.mod_eq_of_lt (by omega)
    rw [if_pos log, if_pos normal, toNat_packComponents, BitVec.toNat_ofNat, BitVec.toNat_ofNat,
      fraction, exponent, Nat.add_assoc]
  · have upper : m.log2 < 52 := (Nat.log2_lt (by omega)).mpr (by omega)
    have log : ¬ m.log2 + 1 = binary64.mantissaBits := by
      change ¬ m.log2 + 1 = 53
      omega
    have fraction : m % 2 ^ 52 = m := Nat.mod_eq_of_lt (by omega)
    rw [if_neg log, if_neg normal, toNat_packComponents, BitVec.toNat_ofNat, BitVec.toNat_ofNat,
      fraction]
    omega

theorem read_pack {r : Reading} (proper : r.Proper) :
    read (Float.ofModel (Float.Model.pack r.unpacked)) = r := by
  cases r with
  | nan => rfl
  | infinite negative => cases negative <;> rfl
  | finite negative m q =>
    have canonical : Canonical m q := proper
    obtain ⟨small, least, greatest, full⟩ := proper
    by_cases zero : m = 0
    · subst zero
      obtain rfl : q = -1074 := by omega
      cases negative <;> rfl
    · simp only [Reading.unpacked, dif_neg zero]
      have bits := toNat_pack canonical (signOf negative) (Nat.pos_of_ne_zero zero)
      rw [toNat_signOf] at bits
      generalize found : Float.ofModel (Float.Model.pack
        (.finite (signOf negative) m q (Nat.pos_of_ne_zero zero))) = x
      have same : x.toBits.toNat = (UnpackedFloat.pack binary64
          (.finite (signOf negative) m q (Nat.pos_of_ne_zero zero))).toNat := by
        rw [← found]
        rfl
      rw [← same] at bits
      by_cases normal : 4503599627370496 ≤ m
      · rw [if_pos normal, ← Nat.add_assoc] at bits
        have whole : 4503599627370496 + (m - 4503599627370496) = m := by omega
        have unbiased : ((q + 1075).toNat : Int) - 1075 = q := by omega
        rw [read_of_bits bits (by omega) (by omega), if_neg (by omega), whole, unbiased]
      · have subnormal : x.toBits.toNat =
            (if negative then 1 else 0) * 9223372036854775808 + 0 * 4503599627370496 + m := by
          rw [bits, if_neg normal]
          omega
        rw [read_of_bits subnormal (by omega) (by omega), if_pos rfl]
        congr 1
        omega

/-- A number is determined by what it is read as. -/
theorem eq_of_read {x y : Float} (same : read x = read y) : x = y := by
  have unpacked : x.toModel.unpack = y.toModel.unpack := by rw [unpack_eq, unpack_eq, same]
  have bits : x.toBits.toBitVec = y.toBits.toBitVec :=
    (UnpackedFloat.unpack_inj_of_valid x.toModel.valid y.toModel.valid).mp unpacked
  exact Float.toBits_inj.mp (UInt64.toBitVec_inj.mp bits)

/-! ### Negation -/

def Reading.negate : Reading → Reading
  | .nan => .nan
  | .infinite negative => .infinite !negative
  | .finite negative m q => .finite (!negative) m q

theorem read_neg (x : Float) : read (-x) = (read x).negate := by
  have flipped : x.toModel.unpack.neg = (read x).negate.unpacked := by
    rw [unpack_eq]
    cases read x with
    | nan => rfl
    | infinite negative => cases negative <;> rfl
    | finite negative m q =>
      simp only [Reading.unpacked, Reading.negate]
      split <;> cases negative <;> rfl
  have proper : (read x).negate.Proper := by
    have := proper_read x
    cases h : read x with
    | nan => trivial
    | infinite negative => trivial
    | finite negative m q => rwa [h] at this
  change read (Float.ofModel (Float.Model.pack x.toModel.unpack.neg)) = _
  rw [flipped, read_pack proper]

/-! ### Equality -/

def Reading.IsZero : Reading → Prop
  | .finite _ m _ => m = 0
  | _ => False

theorem isNaN_iff (x : Float) : x.isNaN = true ↔ read x = .nan := by
  have same : x.isNaN = (read x).unpacked.isNaN := by
    rw [← unpack_eq]
    rfl
  rw [same]
  cases read x with
  | nan => simp [Reading.unpacked, UnpackedFloat.isNaN]
  | infinite negative => simp [Reading.unpacked, UnpackedFloat.isNaN]
  | finite negative m q =>
    simp only [Reading.unpacked]
    split <;> simp [UnpackedFloat.isNaN]

theorem beq_unpacked (r r' : Reading) :
    r.unpacked.beq r'.unpacked = true ↔ r ≠ .nan ∧ (r = r' ∨ r.IsZero ∧ r'.IsZero) := by
  cases r with
  | nan => simp [Reading.unpacked, UnpackedFloat.beq, UnpackedFloat.compare]
  | infinite s =>
    cases r' with
    | nan =>
      cases s <;> simp [Reading.unpacked, UnpackedFloat.beq, UnpackedFloat.compare, Reading.IsZero, signOf]
    | infinite s' => cases s <;> cases s' <;> simp [Reading.IsZero] <;> decide
    | finite s' m' q' =>
      by_cases zero : m' = 0 <;> cases s <;> cases s' <;>
        simp [Reading.unpacked, UnpackedFloat.beq, UnpackedFloat.compare, Reading.IsZero, signOf, zero]
  | finite s m q =>
    cases r' with
    | nan =>
      by_cases zero : m = 0 <;> cases s <;>
        simp [Reading.unpacked, UnpackedFloat.beq, UnpackedFloat.compare, Reading.IsZero, signOf, zero]
    | infinite s' =>
      by_cases zero : m = 0 <;> cases s <;> cases s' <;>
        simp [Reading.unpacked, UnpackedFloat.beq, UnpackedFloat.compare, Reading.IsZero, signOf, zero]
    | finite s' m' q' =>
      -- Of two numbers that are not zero, exponents and mantissas are compared.
      by_cases zero : m = 0 <;> by_cases zero' : m' = 0 <;> cases s <;> cases s' <;>
        simp [Reading.unpacked, UnpackedFloat.beq, UnpackedFloat.compare, Reading.IsZero, signOf, zero, zero',
          Ordering.then_eq_eq] <;> omega

/-- Equal numbers are the same number, or two zeros; what is no number equals nothing. -/
theorem beq_iff (x y : Float) :
    (x == y) = true ↔ read x ≠ .nan ∧ (read x = read y ∨ (read x).IsZero ∧ (read y).IsZero) := by
  have same : (x == y) = (read x).unpacked.beq (read y).unpacked := by
    rw [← unpack_eq, ← unpack_eq]
    rfl
  rw [same, beq_unpacked]

theorem beq_symm {x y : Float} (same : (x == y) = true) : (y == x) = true := by
  rw [beq_iff] at same ⊢
  obtain ⟨left, equal | ⟨zero, zero'⟩⟩ := same
  · exact ⟨equal ▸ left, .inl equal.symm⟩
  · refine ⟨fun nan => ?_, .inr ⟨zero', zero⟩⟩
    rw [nan] at zero'
    exact zero'

theorem beq_trans {x y z : Float} (first : (x == y) = true) (second : (y == z) = true) : (x == z) = true := by
  rw [beq_iff] at first second ⊢
  obtain ⟨left, equal | ⟨zero, _⟩⟩ := first
  · rw [equal]
    exact second
  · obtain ⟨_, equal' | ⟨_, zero'⟩⟩ := second
    · rw [← equal']
      exact ⟨left, .inr ⟨zero, by assumption⟩⟩
    · exact ⟨left, .inr ⟨zero, zero'⟩⟩

theorem beq_self_iff (x : Float) : (x == x) = true ↔ x.isNaN = false := by
  rw [beq_iff, ← Bool.not_eq_true, isNaN_iff]
  simp

end RetroScript.Number
