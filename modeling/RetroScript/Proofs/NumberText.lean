import RetroScript.Number.Text
import RetroScript.Proofs.Rounding

/-!
# The text of a number reads back

`shortest` finds a decimal in the interval of its number: the grid on which the search must stop has
a spacing below half the gap between neighbours. `read?_text` follows from correct rounding, whatever
digits the search takes.
-/
namespace RetroScript.Decimal

open Number (Canonical Rounds)

/-! ### The interval, in whole numbers -/

/-- The unit that makes both factors whole. -/
def unit (q p : ℤ) : ℚ := 10 ^ (-p).toNat * 2 ^ (2 - q).toNat

theorem unit_pos (q p : ℤ) : 0 < unit q p := by
  unfold unit
  positivity

theorem gridFactor_eq (q p : ℤ) : (gridFactor q p : ℚ) = unit q p * 10 ^ p := by
  have power : (10 : ℚ) ^ (-p).toNat * 10 ^ p = 10 ^ p.toNat := by
    rw [← zpow_natCast, ← zpow_natCast, ← zpow_add₀ (by norm_num)]
    congr 1
    omega
  calc (gridFactor q p : ℚ) = 10 ^ p.toNat * 2 ^ (2 - q).toNat := by
        change ((10 ^ p.toNat * 2 ^ (2 - q).toNat : ℕ) : ℚ) = _
        push_cast
        rfl
    _ = unit q p * 10 ^ p := by
        rw [← power]
        unfold unit
        ring

theorem fractionFactor_eq (q p : ℤ) : (fractionFactor q p : ℚ) = unit q p * (2 ^ q / 4) := by
  have power : (2 : ℚ) ^ (2 - q).toNat * (2 ^ q / 4) = 2 ^ (q - 2).toNat := by
    have quarter : (2 : ℚ) ^ q / 4 = 2 ^ (q - 2) := by
      rw [zpow_sub₀ (by norm_num)]
      norm_num
    rw [quarter, ← zpow_natCast, ← zpow_natCast, ← zpow_add₀ (by norm_num)]
    congr 1
    omega
  calc (fractionFactor q p : ℚ) = 2 ^ (q - 2).toNat * 10 ^ (-p).toNat := by
        change ((2 ^ (q - 2).toNat * 10 ^ (-p).toNat : ℕ) : ℚ) = _
        push_cast
        rfl
    _ = unit q p * (2 ^ q / 4) := by
        rw [← power]
        unfold unit
        ring

variable {m : ℕ} {q p : ℤ} {d : ℕ}

theorem point_eq (q p : ℤ) (d : ℕ) : ((d * gridFactor q p : ℕ) : ℚ) = unit q p * (d * 10 ^ p) := by
  push_cast
  rw [gridFactor_eq]
  ring

theorem low_eq (positive : 0 < m) (q p : ℤ) :
    (((4 * m - lowerGap m q) * fractionFactor q p : ℕ) : ℚ) =
      unit q p * ((m - lowerGap m q / 4) * 2 ^ q) := by
  have gap : lowerGap m q ≤ 4 * m := by
    unfold lowerGap
    split <;> omega
  push_cast [gap]
  rw [fractionFactor_eq]
  ring

theorem high_eq (m : ℕ) (q p : ℤ) :
    (((4 * m + 2) * fractionFactor q p : ℕ) : ℚ) = unit q p * ((m + 1 / 2) * 2 ^ q) := by
  push_cast
  rw [fractionFactor_eq]
  ring

theorem readsBack_iff (positive : 0 < m) :
    readsBack m q p d = true ↔ Rounds m q (d * 10 ^ p) := by
  have scale := unit_pos q p
  have low : (4 * m - lowerGap m q) * fractionFactor q p ≤ d * gridFactor q p ↔
      ((m : ℚ) - lowerGap m q / 4) * 2 ^ q ≤ d * 10 ^ p := by
    rw [← Nat.cast_le (α := ℚ), low_eq positive, point_eq, mul_le_mul_iff_right₀ scale]
  have high : d * gridFactor q p ≤ (4 * m + 2) * fractionFactor q p ↔
      (d * 10 ^ p : ℚ) ≤ (m + 1 / 2) * 2 ^ q := by
    rw [← Nat.cast_le (α := ℚ), high_eq, point_eq, mul_le_mul_iff_right₀ scale]
  have above : (4 * m - lowerGap m q) * fractionFactor q p < d * gridFactor q p ↔
      ((m : ℚ) - lowerGap m q / 4) * 2 ^ q < d * 10 ^ p := by
    rw [← Nat.cast_lt (α := ℚ), low_eq positive, point_eq, mul_lt_mul_iff_right₀ scale]
  have below : d * gridFactor q p < (4 * m + 2) * fractionFactor q p ↔
      (d * 10 ^ p : ℚ) < (m + 1 / 2) * 2 ^ q := by
    rw [← Nat.cast_lt (α := ℚ), high_eq, point_eq, mul_lt_mul_iff_right₀ scale]
  unfold readsBack
  dsimp only
  split
  · next even =>
    simp only [Bool.and_eq_true, decide_eq_true_eq, low, high]
    exact ⟨fun h => ⟨h.1, h.2, fun odd => by omega⟩, fun h => ⟨h.low, h.high⟩⟩
  · next odd =>
    simp only [Bool.and_eq_true, decide_eq_true_eq, above, below]
    exact ⟨fun h => ⟨h.1.le, h.2.le, fun _ => h⟩, fun h => h.odd (by omega)⟩

/-! ### The search -/

theorem onGrid?_eq_some {tie : Tie} (found : onGrid? tie m q p = some d) :
    readsBack m q p d = true := by
  unfold onGrid? at found
  dsimp only at found
  generalize 4 * m * fractionFactor q p / gridFactor q p = floor at found
  split at found
  · next lower upper =>
    obtain rfl := Option.some.inj found
    unfold nearer
    split
    · exact lower
    · exact upper
    · split
      · exact upper
      · rcases Nat.mod_two_eq_zero_or_one floor with even | odd
        · rwa [even]
        · rwa [odd]
  · next lower _ =>
    obtain rfl := Option.some.inj found
    exact lower
  · next _ upper =>
    obtain rfl := Option.some.inj found
    exact upper
  · cases found

/-- A grid finer than half the gap above the number has a decimal that reads back. -/
theorem onGrid?_of_fine (tie : Tie) (positive : 0 < m) (fine : (10 : ℚ) ^ p < 2 ^ q / 2) :
    ∃ d, onGrid? tie m q p = some d := by
  have grid : 0 < gridFactor q p := Nat.mul_pos (Nat.pow_pos (by decide)) (Nat.pow_pos (by decide))
  have next : readsBack m q p (4 * m * fractionFactor q p / gridFactor q p + 1) = true := by
    have scale := unit_pos q p
    have power : (0 : ℚ) < 2 ^ q := by positivity
    have gap : (0 : ℚ) < lowerGap m q := by
      unfold lowerGap
      split <;> norm_num
    have floor := Nat.div_mul_le_self (4 * m * fractionFactor q p) (gridFactor q p)
    have ceiling := Nat.lt_mul_div_succ (4 * m * fractionFactor q p) grid
    rw [Nat.mul_comm (gridFactor q p)] at ceiling
    generalize 4 * m * fractionFactor q p / gridFactor q p = d at *
    have number : ((4 * m * fractionFactor q p : ℕ) : ℚ) = unit q p * (m * 2 ^ q) := by
      push_cast
      rw [fractionFactor_eq]
      ring
    rw [← Nat.cast_le (α := ℚ), point_eq, number, mul_le_mul_iff_right₀ scale] at floor
    rw [← Nat.cast_lt (α := ℚ), point_eq, number, mul_lt_mul_iff_right₀ scale] at ceiling
    push_cast at ceiling
    refine (readsBack_iff positive).mpr ⟨?_, ?_, fun _ => ⟨?_, ?_⟩⟩ <;> push_cast <;> nlinarith
  unfold onGrid?
  dsimp only
  rw [next]
  cases readsBack m q p (4 * m * fractionFactor q p / gridFactor q p) with
  | true => exact ⟨_, rfl⟩
  | false => exact ⟨_, rfl⟩

theorem searchDown_readsBack {tie : Tie} {n k : ℕ} {start : ℤ} (reaches : k < n)
    (found : ∃ d, onGrid? tie m q (start - k) = some d) :
    readsBack m q (searchDown tie m q n start).exponent (searchDown tie m q n start).coefficient = true := by
  induction n generalizing start k with
  | zero => cases reaches
  | succ n ih =>
    rw [searchDown]
    cases here : onGrid? tie m q start with
    | some d => exact onGrid?_eq_some here
    | none =>
      cases k with
      | zero =>
        obtain ⟨d, found⟩ := found
        rw [show start - ((0 : ℕ) : ℤ) = start by omega, here] at found
        cases found
      | succ k =>
        refine ih (k := k) (by omega) ?_
        rwa [show start - 1 - (k : ℤ) = start - ((k + 1 : ℕ) : ℤ) by omega]

theorem shortest_readsBack (tie : Tie) (canonical : Canonical m q) (positive : 0 < m) :
    readsBack m q (shortest tie m q).exponent (shortest tie m q).coefficient = true := by
  have log : m.log2 < 53 := (Nat.log2_lt (by omega)).mpr canonical.small
  have least := canonical.least
  have greatest := canonical.greatest
  -- the grid of multiples of `10 ^ (-k)` is fine enough, because `8 ≤ 10`
  let k := (1 - q).toNat / 3 + 1
  have fine : (10 : ℚ) ^ (-(k : ℤ)) < 2 ^ q / 2 := by
    calc (10 : ℚ) ^ (-(k : ℤ)) = (10 ^ k)⁻¹ := by rw [zpow_neg, zpow_natCast]
      _ ≤ (8 ^ k)⁻¹ := by gcongr; norm_num
      _ = (2 : ℚ) ^ (-(3 * k : ℤ)) := by
          rw [zpow_neg, zpow_mul, zpow_natCast]
          norm_num
      _ < 2 ^ (q - 1) := zpow_lt_zpow_right₀ (by norm_num) (by omega)
      _ = 2 ^ q / 2 := by rw [zpow_sub₀ (by norm_num), zpow_one]
  have range : 0 ≤ topExponent m q + k ∧ topExponent m q + k < 400 := by
    unfold topExponent
    dsimp only
    split <;> omega
  refine searchDown_readsBack (k := (topExponent m q + k).toNat) (by omega) ?_
  rw [show topExponent m q - ((topExponent m q + k).toNat : ℤ) = -(k : ℤ) by omega]
  exact onGrid?_of_fine tie positive fine

/-! ### Layout -/

def AllDigits (cs : List Char) : Prop := ∀ c ∈ cs, c.isDigit = true

theorem allDigits_append {ds es : List Char} (first : AllDigits ds) (second : AllDigits es) :
    AllDigits (ds ++ es) := by
  intro c member
  rcases List.mem_append.mp member with member | member
  · exact first c member
  · exact second c member

theorem allDigits_zeros (n : ℕ) : AllDigits (zeros n) := by
  intro c member
  rw [List.eq_of_mem_replicate member]
  rfl

theorem allDigits_digits (d : Decimal) : AllDigits d.digits := by
  intro c member
  exact Nat.isDigit_of_mem_toDigits (by decide) (by decide) member

theorem spanDigits_append {ds rest : List Char} (digits : AllDigits ds)
    (stops : ∀ c ∈ rest.head?, c.isDigit = false) : spanDigits (ds ++ rest) = (ds, rest) := by
  have none : rest.takeWhile Char.isDigit = [] ∧ rest.dropWhile Char.isDigit = rest := by
    cases rest with
    | nil => exact ⟨rfl, rfl⟩
    | cons c rest => simp [stops c rfl]
  unfold spanDigits
  rw [List.takeWhile_append_of_pos digits, List.dropWhile_append_of_pos digits, none.1, none.2,
    List.append_nil]

theorem digitsValue_eq (ds : List Char) : digitsValue ds = Nat.ofDigitChars 10 ds 0 := by
  rw [Nat.ofDigitChars_eq_foldl]
  rfl

theorem digitsValue_digits (d : Decimal) : digitsValue d.digits = d.coefficient := by
  rw [digitsValue_eq]
  exact Nat.ofDigitChars_ten_toDigits

theorem digitsValue_append_zeros (ds : List Char) (n : ℕ) :
    digitsValue (ds ++ zeros n) = digitsValue ds * 10 ^ n := by
  induction n with
  | zero => simp [zeros]
  | succ n ih =>
    rw [zeros, List.replicate_succ', ← List.append_assoc, digitsValue, List.foldl_append]
    change 10 * digitsValue (ds ++ zeros n) + 0 = _
    rw [ih, Nat.pow_succ]
    ring

theorem digitsValue_zeros_append (n : ℕ) (ds : List Char) :
    digitsValue (zeros n ++ ds) = digitsValue ds := by
  induction n with
  | zero => rfl
  | succ n ih =>
    rw [zeros, List.replicate_succ, List.cons_append]
    exact ih

theorem readUnsigned?_whole {ds : List Char} (digits : AllDigits ds) (some : ds ≠ []) :
    readUnsigned? ds = .some (scaled (digitsValue ds) 0) := by
  have span : spanDigits (ds ++ []) = (ds, []) := spanDigits_append digits (by simp)
  rw [List.append_nil] at span
  unfold readUnsigned?
  simp only [span]
  simp [some]

theorem readUnsigned?_pointed {ws fs : List Char} (whole : AllDigits ws) (fraction : AllDigits fs)
    (some : ws ≠ []) :
    readUnsigned? (ws ++ '.' :: fs) = .some (scaled (digitsValue (ws ++ fs)) (-fs.length)) := by
  have first : spanDigits (ws ++ '.' :: fs) = (ws, '.' :: fs) := spanDigits_append whole (by simp)
  have second : spanDigits (fs ++ []) = (fs, []) := spanDigits_append fraction (by simp)
  rw [List.append_nil] at second
  unfold readUnsigned?
  simp only [first, second]
  simp [some]

/-- What is written out in full is read as a decimal of the same value. -/
theorem readUnsigned?_positional (d : Decimal) :
    ∃ n e, readUnsigned? d.positional = some (scaled n e) ∧
      (n : ℚ) * 10 ^ e = d.coefficient * 10 ^ d.exponent := by
  have digits := allDigits_digits d
  have some : d.digits ≠ [] := Nat.toDigits_ne_nil
  have value := digitsValue_digits d
  have scale : d.scale = d.digits.length + d.exponent := rfl
  unfold positional
  dsimp only
  split
  · next nonneg =>
    refine ⟨_, _, readUnsigned?_whole (allDigits_append digits (allDigits_zeros _)) (by simp [some]), ?_⟩
    obtain ⟨k, power⟩ : ∃ k : ℕ, d.exponent = k := ⟨d.exponent.toNat, by omega⟩
    rw [digitsValue_append_zeros, value, power, Int.toNat_natCast]
    push_cast
    rw [mul_one, zpow_natCast]
  · next negative =>
    split
    · next inside =>
      refine ⟨d.coefficient, d.exponent, ?_, rfl⟩
      have some' : d.digits.take d.scale.toNat ≠ [] := by
        simp only [ne_eq, List.take_eq_nil_iff, some, or_false]
        omega
      have length : -((d.digits.drop d.scale.toNat).length : ℤ) = d.exponent := by
        rw [List.length_drop]
        omega
      rw [pointed, readUnsigned?_pointed (fun c member => digits c (List.mem_of_mem_take member))
        (fun c member => digits c (List.mem_of_mem_drop member)) some', List.take_append_drop, value,
        length]
    · next outside =>
      refine ⟨d.coefficient, d.exponent, ?_, rfl⟩
      have length : -((zeros (-d.scale).toNat ++ d.digits).length : ℤ) = d.exponent := by
        simp only [zeros, List.length_append, List.length_replicate]
        omega
      have zero : AllDigits ['0'] := by simp [AllDigits]
      have written : digitsValue (['0'] ++ (zeros (-d.scale).toNat ++ d.digits)) = d.coefficient := by
        rw [show ['0'] = zeros 1 from rfl, digitsValue_zeros_append, digitsValue_zeros_append, value]
      change readUnsigned? (['0'] ++ '.' :: (zeros (-d.scale).toNat ++ d.digits)) = _
      rw [readUnsigned?_pointed zero (allDigits_append (allDigits_zeros _) digits) (by simp), written,
        length]

theorem head_positional (d : Decimal) : ∃ c cs, d.positional = c :: cs ∧ c.isDigit = true := by
  have digits := allDigits_digits d
  cases written : d.digits with
  | nil => exact absurd written Nat.toDigits_ne_nil
  | cons c cs =>
    have first : c.isDigit = true := digits c (by simp [written])
    unfold positional
    simp only [written]
    split
    · exact ⟨c, _, rfl, first⟩
    · split
      · next inside =>
        obtain ⟨k, same⟩ : ∃ k, d.scale.toNat = k + 1 := ⟨d.scale.toNat - 1, by omega⟩
        rw [same]
        exact ⟨c, _, rfl, first⟩
      · exact ⟨'0', _, rfl, rfl⟩

theorem toLower_of_isDigit {c : Char} (digit : c.isDigit = true) : c.toLower = c := by
  rw [Char.isDigit, Bool.and_eq_true, decide_eq_true_eq, decide_eq_true_eq] at digit
  have high : c.val.toNat ≤ 57 := UInt32.le_iff_toNat_le.mp digit.2
  refine dif_neg fun upper => ?_
  have low : 65 ≤ c.val.toNat := UInt32.le_iff_toNat_le.mp upper.1
  omega

/-- A text that starts with a digit is no word. -/
theorem ofList_toLower_ne {c : Char} {cs : List Char} (digit : c.isDigit = true) {text : String}
    {first : Char} {rest : List Char} (word : text.toList = first :: rest) (letter : first.isDigit = false) :
    String.ofList ((c :: cs).map Char.toLower) ≠ text := by
  rintro rfl
  rw [String.toList_ofList, List.map_cons, toLower_of_isDigit digit] at word
  obtain rfl := (List.cons.inj word).1
  rw [digit] at letter
  cases letter

theorem readMagnitude?_of_digit {c : Char} (digit : c.isDigit = true) (cs : List Char) :
    readMagnitude? (c :: cs) = readUnsigned? (c :: cs) := by
  unfold readMagnitude?
  split
  · next same => exact absurd same (ofList_toLower_ne digit rfl rfl)
  · next same => exact absurd same (ofList_toLower_ne digit rfl rfl)
  · next same => exact absurd same (ofList_toLower_ne digit rfl rfl)
  · rfl

theorem read?_of_digit {c : Char} (digit : c.isDigit = true) (cs : List Char) :
    read? (String.ofList (c :: cs)) = readUnsigned? (c :: cs) := by
  unfold read?
  rw [String.toList_ofList]
  split
  · next same =>
    obtain rfl := (List.cons.inj same).1
    cases digit
  · next same =>
    obtain rfl := (List.cons.inj same).1
    cases digit
  · exact readMagnitude?_of_digit digit cs

end RetroScript.Decimal

namespace RetroScript.Number

/-- Whether a number has a minus sign. -/
def isNegative (x : Float) : Bool :=
  match read x with
  | .nan => false
  | .infinite negative => negative
  | .finite negative _ _ => negative

/-- The text of a number without a minus sign reads as the number. -/
theorem read?_text {x : Float} (nonneg : isNegative x = false) :
    Decimal.read? (text x) = some x := by
  have proper := proper_read x
  unfold isNegative at nonneg
  unfold text
  cases same : read x with
  | nan =>
    have : x = 0.0 / 0.0 := eq_of_read (by rw [same]; rfl)
    rw [this]
    rfl
  | infinite negative =>
    rw [same] at nonneg
    obtain rfl : negative = false := nonneg
    have : x = 1.0 / 0.0 := eq_of_read (by rw [same]; rfl)
    rw [this]
    rfl
  | finite negative m q =>
    rw [same] at nonneg proper
    obtain rfl : negative = false := nonneg
    dsimp only
    split
    · next zero =>
      subst zero
      obtain rfl : q = -1074 := by
        rcases proper.full with full | least
        · omega
        · exact least
      have : x = Decimal.scaled 0 0 := eq_of_read (by rw [same]; rfl)
      rw [this]
      rfl
    · next nonzero =>
      have canonical : Canonical m q := proper
      have positive : 0 < m := Nat.pos_of_ne_zero nonzero
      have back := (Decimal.readsBack_iff positive).mp (Decimal.shortest_readsBack .up canonical positive)
      generalize Decimal.shortest .up m q = d at back
      obtain ⟨n, e, reads, value⟩ := Decimal.readUnsigned?_positional d
      obtain ⟨c, cs, written, digit⟩ := Decimal.head_positional d
      rw [← value] at back
      change Decimal.read? ("" ++ String.ofList d.positional) = _
      rw [String.empty_append, written, Decimal.read?_of_digit digit, ← written, reads]
      exact congrArg some (eq_of_read (by rw [same, read_scaled canonical positive back]))

theorem isNegative_neg {x : Float} (negative : isNegative x = true) : isNegative (-x) = false := by
  unfold isNegative at negative ⊢
  rw [read_neg]
  cases same : read x with
  | nan => rfl
  | infinite sign =>
    rw [same] at negative
    simp [Reading.negate, show sign = true from negative]
  | finite sign m q =>
    rw [same] at negative
    simp [Reading.negate, show sign = true from negative]

theorem neg_neg (x : Float) : - -x = x := by
  apply eq_of_read
  rw [read_neg, read_neg]
  cases read x with
  | nan => rfl
  | infinite sign => simp [Reading.negate]
  | finite sign m q => simp [Reading.negate]

end RetroScript.Number
