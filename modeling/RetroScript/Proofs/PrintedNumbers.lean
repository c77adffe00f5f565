import RetroScript.Fault
import RetroScript.Proofs.NumberText
import RetroScript.Proofs.NumberValue
import RetroScript.Proofs.Parsing
import RetroScript.Proofs.Rendering

/-!
# Printed numbers are numerals

The digits of a number are a numeral of the language, and the sign before them is one that an expression may start
with. So the text of a finite number is an expression that stands for the number: `text_is_numeral`.
-/

namespace RetroScript.Token

open Decimal (AllDigits spanDigits_append)

/-! ### Numerals -/

/-- Digits, and perhaps a point and further digits. -/
def Numeral (cs : List Char) : Prop :=
  ∃ c ds, c.isDigit = true ∧ AllDigits ds ∧
    (cs = c :: ds ∨ ∃ d fs, d.isDigit = true ∧ AllDigits fs ∧ cs = c :: (ds ++ '.' :: d :: fs))

/-- Nothing that would continue a numeral. -/
def EndsNumeral (rest : List Char) : Prop := ∀ c ∈ rest.head?, c.isDigit = false ∧ c ≠ '.'

theorem endsNumeral_nil : EndsNumeral [] := nofun

theorem takeWhile_digits {ds rest : List Char} (digits : AllDigits ds) (stops : ∀ c ∈ rest.head?, c.isDigit = false) :
    (ds ++ rest).takeWhile Char.isDigit = ds ∧ (ds ++ rest).dropWhile Char.isDigit = rest :=
  Prod.mk.inj (spanDigits_append digits stops)

theorem scan_digit {c : Char} (digit : c.isDigit = true) (cs : List Char) : scan c cs = scanNumber c cs := by
  have blank : isBlank c = false := not_blank_of digit (by decide)
  have hash : c ≠ '#' := by
    rintro rfl
    cases digit
  have quote : c ≠ '"' := by
    rintro rfl
    cases digit
  rw [scan, blank, if_neg Bool.false_ne_true, if_neg hash, if_neg quote, if_pos digit]

theorem scan_numeral {cs rest : List Char} (numeral : Numeral cs) (ends : EndsNumeral rest) :
    ∃ c tail, cs = c :: tail ∧ scan c (tail ++ rest) = plain .number cs rest := by
  have stops : ∀ c ∈ rest.head?, c.isDigit = false := fun c found => (ends c found).1
  obtain ⟨c, ds, digit, digits, rfl | ⟨d, fs, first, fraction, rfl⟩⟩ := numeral
  · refine ⟨c, ds, rfl, ?_⟩
    have ⟨taken, left⟩ := takeWhile_digits digits stops
    rw [scan_digit digit, scanNumber]
    simp only [taken, left]
    split
    · next point => exact absurd rfl (ends '.' rfl).2
    · rfl
  · refine ⟨c, _, rfl, ?_⟩
    have point : ∀ c ∈ ('.' :: d :: (fs ++ rest)).head?, c.isDigit = false := by simp
    have ⟨taken, left⟩ := takeWhile_digits digits point
    have ⟨taken', left'⟩ := takeWhile_digits fraction stops
    rw [scan_digit digit, scanNumber]
    simp only [List.append_assoc, List.cons_append, taken, left, first, if_true, taken', left']

theorem lexFrom_numeral {cs rest : List Char} (numeral : Numeral cs) (ends : EndsNumeral rest) (pos : Position)
    (read : List Token) :
    lexFrom pos (cs ++ rest) read = lexFrom (pos.advance cs) rest (⟨.number, String.ofList cs, pos⟩ :: read) := by
  obtain ⟨c, tail, rfl, found⟩ := scan_numeral numeral ends
  exact lexFrom_token found read

theorem lex_numeral {cs : List Char} (numeral : Numeral cs) :
    lex (String.ofList cs) = .ok [⟨.number, String.ofList cs, .start⟩] := by
  have ended := lexFrom_numeral numeral endsNumeral_nil .start []
  rw [List.append_nil, lexFrom] at ended
  rw [lex, String.toList_ofList, ended]
  rfl

end RetroScript.Token

namespace RetroScript.Decimal

theorem numeral_of_digits {ds : List Char} (digits : AllDigits ds) (some : ds ≠ []) : Token.Numeral ds := by
  obtain ⟨c, cs, rfl⟩ := List.exists_cons_of_ne_nil some
  exact ⟨c, cs, digits c List.mem_cons_self, fun d member => digits d (List.mem_cons_of_mem c member), .inl rfl⟩

theorem numeral_of_pointed {ws fs : List Char} (whole : AllDigits ws) (fraction : AllDigits fs) (some : ws ≠ [])
    (some' : fs ≠ []) : Token.Numeral (ws ++ '.' :: fs) := by
  obtain ⟨c, ds, rfl⟩ := List.exists_cons_of_ne_nil some
  obtain ⟨d, es, rfl⟩ := List.exists_cons_of_ne_nil some'
  exact ⟨c, ds, whole c List.mem_cons_self, fun d member => whole d (List.mem_cons_of_mem c member),
    .inr ⟨d, es, fraction d List.mem_cons_self, fun e member => fraction e (List.mem_cons_of_mem d member), rfl⟩⟩

theorem numeral_positional (d : Decimal) : Token.Numeral d.positional := by
  have digits := allDigits_digits d
  have some : d.digits ≠ [] := Nat.toDigits_ne_nil
  have scale : d.scale = d.digits.length + d.exponent := rfl
  unfold positional
  dsimp only
  split
  · exact numeral_of_digits (allDigits_append digits (allDigits_zeros _)) (by simp [some])
  · next negative =>
    split
    · next inside =>
      apply numeral_of_pointed
      · exact fun c member => digits c (List.mem_of_mem_take member)
      · exact fun c member => digits c (List.mem_of_mem_drop member)
      · simp only [ne_eq, List.take_eq_nil_iff, some, or_false]
        omega
      · simp only [ne_eq, List.drop_eq_nil_iff]
        omega
    · exact numeral_of_pointed (allDigits_zeros 1) (allDigits_append (allDigits_zeros _) digits) (by simp [zeros])
        (by simp [some])

/-! ### Integers -/

open Number (Canonical Rounds rounds_self lowerGap_le)

section

variable {m N : ℕ} {q : ℤ}

/-- Below `10 ^ 16` the only integer that rounds to an integer is itself, but for odd ones next to it above `2 ^ 53`. -/
theorem eq_of_rounds (canonical : Canonical m q) (value : (m : ℚ) * 2 ^ q = N) (small : N < 10 ^ 16) {M : ℕ}
    (rounds : Rounds m q M) (even : M % 2 = 0 ∨ q ≤ 0) : M = N := by
  have gap := lowerGap_le m q
  have unit : (0 : ℚ) < 2 ^ q := by positivity
  have low : (N : ℚ) - 2 ^ q / 2 ≤ M := by
    refine le_trans ?_ rounds.low
    rw [← value]
    nlinarith
  have high : (M : ℚ) ≤ N + 2 ^ q / 2 := by
    refine rounds.high.trans_eq ?_
    rw [← value]
    ring
  rcases le_or_gt q 0 with fraction | whole
  · have one : (2 : ℚ) ^ q ≤ 1 := zpow_le_one_of_nonpos₀ (by norm_num) fraction
    have below : (N : ℚ) < M + 1 := by linarith
    have above : (M : ℚ) < N + 1 := by linarith
    norm_cast at below above
    omega
  · -- fifty-three bits, so the exponent is one
    have full : 4503599627370496 ≤ m := by
      have := canonical.full
      omega
    obtain ⟨k, rfl⟩ := Int.eq_ofNat_of_zero_le whole.le
    have doubled : m * 2 ^ k = N := by exact_mod_cast value
    have one : k = 1 := by
      by_contra other
      have : 2 ^ 2 ≤ 2 ^ k := Nat.pow_le_pow_right (by norm_num) (by omega)
      have : 4503599627370496 * 2 ^ 2 ≤ m * 2 ^ k := Nat.mul_le_mul full this
      omega
    subst one
    norm_num at low high
    have below : N ≤ M + 1 := by exact_mod_cast low
    have above : M ≤ N + 1 := by exact_mod_cast high
    omega

variable {c k : ℕ} (tie : Tie)

theorem onGrid?_coarse (canonical : Canonical m q) (positive : 0 < m) (value : (m : ℚ) * 2 ^ q = (c * 10 ^ k : ℕ))
    (small : c * 10 ^ k < 10 ^ 16) (short : ¬ 10 ∣ c) {p : ℕ} (coarse : k < p) : onGrid? tie m q p = none := by
  cases found : onGrid? tie m q p with
  | none => rfl
  | some d =>
    have rounds := (readsBack_iff positive).mp (onGrid?_eq_some found)
    obtain ⟨j, rfl⟩ : ∃ j, p = k + (j + 1) := ⟨p - k - 1, by omega⟩
    have same : (d : ℚ) * 10 ^ ((k + (j + 1) : ℕ) : ℤ) = (d * 10 ^ (k + (j + 1)) : ℕ) := by
      rw [zpow_natCast]
      push_cast
      rfl
    rw [same] at rounds
    have even : d * 10 ^ (k + (j + 1)) % 2 = 0 := by
      rw [← Nat.add_assoc, Nat.pow_succ, ← Nat.mul_assoc]
      omega
    have whole := eq_of_rounds canonical value small rounds (.inl even)
    have parts : d * 10 ^ (k + (j + 1)) = d * 10 ^ j * 10 * 10 ^ k := by ring
    rw [parts] at whole
    exact absurd ⟨d * 10 ^ j, by rw [← Nat.mul_right_cancel (Nat.pow_pos (by norm_num)) whole]; ring⟩ short

theorem onGrid?_exact (positive : 0 < m) (value : (m : ℚ) * 2 ^ q = (c * 10 ^ k : ℕ)) :
    onGrid? tie m q k = some c := by
  have scale := unit_pos q k
  have grid : 0 < gridFactor q k := Nat.mul_pos (Nat.pow_pos (by decide)) (Nat.pow_pos (by decide))
  have point : 4 * m * fractionFactor q k = c * gridFactor q k := by
    have : ((4 * m * fractionFactor q k : ℕ) : ℚ) = (c * gridFactor q k : ℕ) := by
      rw [point_eq, zpow_natCast, Nat.cast_mul, fractionFactor_eq]
      push_cast at value ⊢
      rw [← value]
      ring
    exact_mod_cast this
  have back : readsBack m q k c = true := by
    rw [readsBack_iff positive, zpow_natCast]
    have rounds := rounds_self m q
    rw [value] at rounds
    exact_mod_cast rounds
  have below : 8 * m * fractionFactor q k < (2 * c + 1) * gridFactor q k := by
    have : 8 * m * fractionFactor q k = 2 * (c * gridFactor q k) := by
      rw [← point]
      ring
    have : (2 * c + 1) * gridFactor q k = 2 * (c * gridFactor q k) + gridFactor q k := by ring
    omega
  unfold onGrid?
  dsimp only
  rw [point, Nat.mul_div_cancel _ grid, back]
  cases readsBack m q k (c + 1) with
  | false => rfl
  | true =>
    dsimp only
    unfold nearer
    rw [Nat.compare_eq_lt.mpr below]

theorem searchDown_eq {n i : ℕ} {start : ℤ} {d : ℕ} (reaches : i < n)
    (coarse : ∀ j < i, onGrid? tie m q (start - j) = none) (found : onGrid? tie m q (start - i) = some d) :
    searchDown tie m q n start = ⟨d, start - i⟩ := by
  induction n generalizing start i with
  | zero => cases reaches
  | succ n ih =>
    rw [searchDown]
    cases i with
    | zero =>
      rw [Int.natCast_zero, Int.sub_zero] at found ⊢
      rw [found]
    | succ i =>
      have first := coarse 0 (Nat.succ_pos i)
      rw [Int.natCast_zero, Int.sub_zero] at first
      have next (j : ℕ) : start - ((j + 1 : ℕ) : ℤ) = start - 1 - j := by omega
      rw [first, next]
      rw [next] at found
      refine ih (Nat.lt_of_succ_lt_succ reaches) (fun j less => ?_) found
      rw [← next]
      exact coarse (j + 1) (Nat.succ_lt_succ less)

theorem topExponent_integer (positive : 0 < m) (value : (m : ℚ) * 2 ^ q = (c * 10 ^ k : ℕ))
    (small : c * 10 ^ k < 10 ^ 16) (some : 0 < c) : (k : ℤ) ≤ topExponent m q ∧ topExponent m q < 400 := by
  have two : (1 : ℚ) < 2 := by norm_num
  have unit : (0 : ℚ) < 2 ^ q := by positivity
  have lower : (2 : ℚ) ^ (m.log2 + q) < 2 ^ (54 : ℤ) := by
    calc (2 : ℚ) ^ (m.log2 + q) ≤ m * 2 ^ q := Number.two_pow_log2_le (by omega) q
      _ < 10 ^ 16 := by rw [value]; exact_mod_cast small
      _ ≤ 2 ^ (54 : ℤ) := by norm_num
  have upper : (2 : ℚ) ^ ((3 * k : ℕ) : ℤ) < 2 ^ (m.log2 + 1 + q) := by
    calc (2 : ℚ) ^ ((3 * k : ℕ) : ℤ) = 8 ^ k := by rw [zpow_natCast, pow_mul]; norm_num
      _ ≤ 10 ^ k := by gcongr; norm_num
      _ ≤ (c * 10 ^ k : ℕ) := by exact_mod_cast Nat.le_mul_of_pos_left (10 ^ k) some
      _ = m * 2 ^ q := value.symm
      _ < 2 ^ (m.log2 + 1) * 2 ^ q := by
          gcongr
          exact_mod_cast Nat.lt_log2_self
      _ = 2 ^ (m.log2 + 1 + q) := by
          rw [zpow_add₀ (by norm_num)]
          norm_cast
  rw [zpow_lt_zpow_iff_right₀ two] at lower upper
  unfold topExponent
  dsimp only
  split <;> omega

/-- An integer below `10 ^ 16` has its own digits. -/
theorem shortest_integer (canonical : Canonical m q) (positive : 0 < m) (value : (m : ℚ) * 2 ^ q = (c * 10 ^ k : ℕ))
    (small : c * 10 ^ k < 10 ^ 16) (short : ¬ 10 ∣ c) : shortest tie m q = ⟨c, k⟩ := by
  have some : 0 < c := by
    refine Nat.pos_of_ne_zero ?_
    rintro rfl
    exact short (Nat.dvd_zero 10)
  have range := topExponent_integer positive value small some
  have reached : topExponent m q - ((topExponent m q - k).toNat : ℤ) = k := by omega
  have coarse : ∀ j < (topExponent m q - k).toNat, onGrid? tie m q (topExponent m q - j) = none := by
    intro j less
    obtain ⟨p, exponent⟩ := Int.eq_ofNat_of_zero_le (show 0 ≤ topExponent m q - j by omega)
    rw [exponent]
    exact onGrid?_coarse tie canonical positive value small short (by omega)
  have found : onGrid? tie m q (topExponent m q - ((topExponent m q - k).toNat : ℤ)) = .some c := by
    rw [reached]
    exact onGrid?_exact tie positive value
  rw [shortest, searchDown_eq tie (by omega) coarse found, reached]

theorem digits_append_zeros (some : 0 < c) (k : ℕ) : Nat.toDigits 10 c ++ zeros k = Nat.toDigits 10 (c * 10 ^ k) := by
  induction k with
  | zero => simp [zeros]
  | succ k ih =>
    have more : 0 < c * 10 ^ k := Nat.mul_pos some (Nat.pow_pos (by norm_num))
    have digit := Nat.toDigits_append_toDigits (b := 10) (d := 0) (by norm_num) more (by norm_num)
    rw [zeros, List.replicate_succ', ← List.append_assoc]
    change Nat.toDigits 10 c ++ zeros k ++ Nat.toDigits 10 0 = _
    rw [ih, digit]
    congr 1
    ring

theorem positional_shortest (canonical : Canonical m q) (positive : 0 < m) (value : (m : ℚ) * 2 ^ q = N)
    (small : N < 10 ^ 16) : (shortest tie m q).positional = Nat.toDigits 10 N := by
  have nonzero : N ≠ 0 := by
    rintro rfl
    have := Number.magnitude_pos positive.ne' q
    rw [value] at this
    simp at this
  obtain ⟨k, c, short, rfl⟩ := Nat.exists_eq_pow_mul_and_not_dvd nonzero 10 (by norm_num)
  rw [Nat.mul_comm] at value small nonzero ⊢
  have some : 0 < c := Nat.pos_of_ne_zero (left_ne_zero_of_mul nonzero)
  rw [shortest_integer tie canonical positive value small short, ← digits_append_zeros some, positional]
  dsimp only
  rw [if_pos (Int.natCast_nonneg k), Int.toNat_natCast]
  rfl

end

end RetroScript.Decimal

namespace RetroScript.Number

theorem isFinite_iff (x : Float) : x.isFinite = true ↔ ∃ negative m q, read x = .finite negative m q := by
  have same : x.isFinite = (read x).unpacked.isFinite := by
    rw [← unpack_eq]
    rfl
  rw [same]
  cases read x with
  | nan => simp [Reading.unpacked, Float.Model.UnpackedFloat.isFinite]
  | infinite negative => simp [Reading.unpacked, Float.Model.UnpackedFloat.isFinite]
  | finite negative m q =>
    simp only [Reading.unpacked]
    split <;> simp [Float.Model.UnpackedFloat.isFinite]

end RetroScript.Number

namespace RetroScript.Syntax

open Token (Kind Numeral EndsNumeral lexFrom lexFrom_token lexFrom_blank lexFrom_numeral)
open Number (signText withSign)

/-! ### Signed numerals as expressions -/

/-- The tokens of a numeral at `pos`, perhaps behind a minus sign. -/
def literal (negative : Bool) (numeral : String) (pos : Position) : List Token :=
  if negative then [⟨.minus, "-", pos⟩, ⟨.number, numeral, pos.next '-'⟩] else [⟨.number, numeral, pos⟩]

theorem lexFrom_literal {cs rest : List Char} (numeral : Numeral cs) (ends : EndsNumeral rest) (negative : Bool)
    (pos : Position) (read : List Token) :
    ∃ pos', lexFrom pos ((signText negative).toList ++ (cs ++ rest)) read =
      lexFrom pos' rest ((literal negative (String.ofList cs) pos).reverse ++ read) := by
  cases negative with
  | false => exact ⟨_, lexFrom_numeral numeral ends pos read⟩
  | true =>
    have minus : Token.scan '-' (cs ++ rest) = .token .minus ['-'] "-" (cs ++ rest) := rfl
    exact ⟨_, (lexFrom_token minus read).trans (lexFrom_numeral numeral ends _ _)⟩

/-- What ends an expression here: nothing, or a semicolon. -/
def Quiet (rest : List Token) : Prop := ∀ t ∈ (words rest).head?, t.kind = .semicolon

theorem quiet_nil : Quiet [] := nofun

section

variable {ts rest : List Token} {e : Expr}

theorem Quiet.not_ahead (quiet : Quiet rest) {kind : Kind} (other : kind ≠ .semicolon) :
    (words rest).head?.any (·.kind = kind) = false := by
  rw [any_kind_eq_false]
  intro t found same
  exact other (same ▸ quiet t found)

theorem chain_of_operand (quiet : Quiet rest) {operator : Kind → Option Operator} (passed : operator .semicolon = none)
    {operand : Parser Expr} (read : operand ts = .ok (e, rest)) (bound : Nat) :
    chain bound operator operand ts = .ok (e, rest) := by
  have ended : (words rest).head?.bind (operator ·.kind) = none := by
    rw [Option.bind_eq_none_iff]
    intro t found
    rw [quiet t found, passed]
  rw [chain, bind_of_ok read]
  cases bound with
  | zero => rfl
  | succ n =>
    rw [moreOperands, peek_bind, ended]
    rfl

theorem expr_of_atom (quiet : Quiet rest) {n : Nat} (read : atom ⟨n + 1, expr n, block n⟩ ts = .ok (e, rest)) :
    expr (n + 1) ts = .ok (e, rest) := by
  have plain : indexed ⟨n + 1, expr n, block n⟩ ts = .ok (e, rest) := by
    rw [indexed, bind_of_ok read, moreIndexes, peekIs_bind, quiet.not_ahead (by decide)]
    rfl
  have flat : power ⟨n + 1, expr n, block n⟩ ts = .ok (e, rest) := by
    rw [power, bind_of_ok plain, peekIs_bind, quiet.not_ahead (by decide)]
    rfl
  have chained {operator : Kind → Option Operator} (passed : operator .semicolon = none) {operand : Parser Expr}
      (read : operand ts = .ok (e, rest)) : chain (n + 1) operator operand ts = .ok (e, rest) :=
    chain_of_operand quiet passed read (n + 1)
  rw [expr]
  exact chained rfl (chained rfl (chained rfl (chained rfl flat)))

end

theorem number_numeral {s : String} {x : Float} (value : Decimal.read? s = some x) (negative : Bool) (pos : Position)
    (rest : List Token) : number negative (⟨.number, s, pos⟩ :: rest) = .ok (withSign negative x, rest) := by
  have eaten : eat .number (⟨.number, s, pos⟩ :: rest) = .ok (⟨.number, s, pos⟩, rest) := rfl
  rw [number, bind_of_ok eaten]
  simp only [value]
  rfl

theorem expr_literal {s : String} {x : Float} (value : Decimal.read? s = some x) (negative : Bool) (pos : Position)
    {rest : List Token} (quiet : Quiet rest) (n : Nat) :
    expr (n + 1) (literal negative s pos ++ rest) = .ok (.number pos (withSign negative x), rest) := by
  apply expr_of_atom quiet
  cases negative with
  | false =>
    have read := number_numeral value false pos rest
    exact bind_of_ok (f := fun y => pure (Expr.number pos y)) read
  | true =>
    have read := number_numeral value true (pos.next '-') rest
    exact bind_of_ok (f := fun y => pure (Expr.number pos y)) read

/-- The tokens of `const n =`. -/
def constantFront : List Token :=
  [⟨.constWord, "const", ⟨1, 1⟩⟩, ⟨.ident, "n", ⟨1, 7⟩⟩, ⟨.equal, "=", ⟨1, 9⟩⟩]

theorem lexFrom_constantFront {c : Char} (visible : Token.isBlank c = false) (cs : List Char) :
    lexFrom .start ("const n = ".toList ++ c :: cs) [] = lexFrom ⟨1, 11⟩ (c :: cs) constantFront.reverse := by
  have word : Token.scan 'c' ("onst n = ".toList ++ c :: cs) =
    .token .constWord "const".toList "const" (" n = ".toList ++ c :: cs) := rfl
  have gap : Token.scan ' ' ("n = ".toList ++ c :: cs) = .blank [' '] ("n = ".toList ++ c :: cs) := rfl
  have name : Token.scan 'n' (" = ".toList ++ c :: cs) = .token .ident ['n'] "n" (" = ".toList ++ c :: cs) := rfl
  have gap' : Token.scan ' ' ("= ".toList ++ c :: cs) = .blank [' '] ("= ".toList ++ c :: cs) := rfl
  have equal : Token.scan '=' (' ' :: c :: cs) = .token .equal ['='] "=" (' ' :: c :: cs) := rfl
  have last : Token.scan ' ' (c :: cs) = .blank [' '] (c :: cs) := by
    simp [Token.scan, visible, show Token.isBlank ' ' = true from rfl]
  exact (lexFrom_token word _).trans <| (lexFrom_blank gap _).trans <| (lexFrom_token name _).trans <|
    (lexFrom_blank gap' _).trans <| (lexFrom_token equal _).trans (lexFrom_blank last _)

theorem lex_constant {cs : List Char} (numeral : Numeral cs) (negative : Bool) :
    ∃ pos, Token.lex ("const n = " ++ (signText negative ++ String.ofList cs) ++ ";") =
      .ok (constantFront ++ (literal negative (String.ofList cs) ⟨1, 11⟩ ++ [⟨.semicolon, ";", pos⟩])) := by
  have source : ("const n = " ++ (signText negative ++ String.ofList cs) ++ ";").toList =
      "const n = ".toList ++ ((signText negative).toList ++ (cs ++ [';'])) := by
    simp only [String.toList_append, String.toList_ofList, List.append_assoc]
    rfl
  obtain ⟨c, tail, first, visible⟩ : ∃ c tail, (signText negative).toList ++ (cs ++ [';']) = c :: tail ∧
      Token.isBlank c = false := by
    obtain ⟨c, ds, digit, -, shape⟩ := numeral
    cases negative with
    | true => exact ⟨'-', _, rfl, rfl⟩
    | false =>
      have blank : Token.isBlank c = false := Token.not_blank_of digit (by decide)
      rcases shape with rfl | ⟨d, fs, -, -, rfl⟩ <;> exact ⟨c, _, rfl, blank⟩
  have ends : EndsNumeral [';'] := by simp [EndsNumeral]
  obtain ⟨pos, read⟩ := lexFrom_literal numeral ends negative ⟨1, 11⟩ constantFront.reverse
  refine ⟨pos, ?_⟩
  rw [Token.lex, source, first, lexFrom_constantFront visible, ← first, read, lexFrom_token rfl, lexFrom]
  simp

theorem parse_constant {s : String} {x : Float} (value : Decimal.read? s = some x) (negative : Bool) (pos : Position) :
    parse (constantFront ++ (literal negative s ⟨1, 11⟩ ++ [⟨.semicolon, ";", pos⟩])) =
      .ok ⟨[.const .start "n" (.number ⟨1, 11⟩ (withSign negative x))]⟩ := by
  have quiet : Quiet [⟨.semicolon, ";", pos⟩] := by simp [Quiet, words, isComment]
  generalize behind : literal negative s ⟨1, 11⟩ ++ [⟨.semicolon, ";", pos⟩] = behind'
  have front : ∀ inner : Inner, item inner ⟨.constWord, "const", ⟨1, 1⟩⟩ (constantFront ++ behind') =
      (inner.expr >>= fun e => eat .semicolon >>= fun _ => pure (Item.const .start "n" e) : Parser Item) behind' :=
    fun _ => rfl
  have last : ∀ e : Expr, (eat .semicolon >>= fun _ => pure (Item.const .start "n" e) : Parser Item)
      [⟨.semicolon, ";", pos⟩] = .ok (.const .start "n" e, []) := fun _ => rfl
  have read : ∀ n, item (inner (n + 1)) ⟨.constWord, "const", ⟨1, 1⟩⟩ (constantFront ++ behind') =
      .ok (.const .start "n" (.number ⟨1, 11⟩ (withSign negative x)), []) := by
    intro n
    rw [front, ← behind]
    exact (bind_of_ok (expr_literal value negative ⟨1, 11⟩ quiet n)).trans (last _)
  have round : ∀ i n, moreProgram i (n + 1) [] (constantFront ++ behind') =
      (item i ⟨.constWord, "const", ⟨1, 1⟩⟩ >>= fun next => moreProgram i n [next]) (constantFront ++ behind') :=
    fun _ _ => rfl
  have ended : ∀ i n (next : Item), moreProgram i n [next] [] = .ok ([next], []) := by
    intro i n next
    cases n <;> rfl
  rw [parse, round, bind_of_ok (read _), ended]

end RetroScript.Syntax

namespace RetroScript.Number

open Token (Numeral)

variable {x : Float}

theorem text_of_nonneg (finite : x.isFinite = true) (nonneg : isNegative x = false) :
    ∃ cs, Numeral cs ∧ text x = String.ofList cs := by
  obtain ⟨negative, m, q, known⟩ := (isFinite_iff x).mp finite
  rw [isNegative, known] at nonneg
  obtain rfl : negative = false := nonneg
  rw [text, known]
  dsimp only
  split
  · exact ⟨['0'], ⟨'0', [], rfl, by simp [Decimal.AllDigits], .inl rfl⟩, rfl⟩
  · exact ⟨_, Decimal.numeral_positional _, String.empty_append⟩

theorem beq_zero_iff (x : Float) : (x == 0) = true ↔ (read x).IsZero := by
  have zero : read 0 = .finite false 0 (-1074) := rfl
  rw [beq_iff, zero]
  cases read x <;> simp +contextual [Reading.IsZero]

/-- Integers below `10 ^ 16` are written as integers. -/
theorem text_integer {n : ℤ} (finite : x.isFinite = true) (value : (read x).value = n) (small : n.natAbs < 10 ^ 16) :
    text x = toString n := by
  obtain ⟨negative, m, q, known⟩ := (isFinite_iff x).mp finite
  have canonical := proper_read x
  rw [known] at value canonical
  rw [text, known]
  dsimp only
  obtain ⟨size, sign⟩ := value_integer value
  generalize n.natAbs = N at *
  rw [← sign]
  split
  · next zero =>
    rw [zero, Nat.cast_zero, zero_mul] at size
    obtain rfl : N = 0 := Nat.cast_eq_zero.mp size.symm
    cases negative <;> rfl
  · next nonzero =>
    have positive := Nat.pos_of_ne_zero nonzero
    rw [Decimal.positional_shortest .up canonical positive size small, ← Nat.repr_eq_ofList_toDigits]
    cases negative with
    | false => exact String.empty_append
    | true =>
      have some : N ≠ 0 := by
        rintro rfl
        exact (magnitude_pos nonzero q).ne' (size.trans Nat.cast_zero)
      obtain ⟨k, rfl⟩ := Nat.exists_eq_succ_of_ne_zero some
      rfl

/-- What is written is a sign, if any, and the text of a number without one. Zero has no sign. -/
theorem text_eq_signed (finite : x.isFinite = true) :
    ∃ negative z, text x = signText negative ++ text z ∧ z.isFinite = true ∧ isNegative z = false ∧
      withSign negative z = if x == 0 then 0 else x := by
  obtain ⟨negative, m, q, known⟩ := (isFinite_iff x).mp finite
  have zero : (x == 0) = true ↔ m = 0 := by rw [beq_zero_iff, known, Reading.IsZero]
  by_cases none : m = 0
  · refine ⟨false, 0, ?_, rfl, rfl, ?_⟩
    · rw [text, known]
      simp only [none, if_true]
      rfl
    · rw [if_pos (zero.mpr none)]
      rfl
  · rw [if_neg (mt zero.mp none)]
    cases negative with
    | false => exact ⟨false, x, String.empty_append.symm, finite, by rw [isNegative, known], rfl⟩
    | true =>
      have negated : read (-x) = .finite false m q := by rw [read_neg, known]; rfl
      refine ⟨true, -x, ?_, (isFinite_iff _).mpr ⟨_, _, _, negated⟩, by rw [isNegative, negated], neg_neg x⟩
      rw [text, text, known, negated]
      simp only [none, if_false, signText, Bool.false_eq_true, String.empty_append]

/-- A text is read as a number: it is a numeral behind an optional sign, an expression, and an expression in a program. -/
structure ReadsAs (text : String) (y : Float) : Prop where
  numeral : ∃ sign body, text = sign ++ body ∧ (sign = "" ∨ sign = "-") ∧
    Token.lex body = .ok [⟨.number, body, .start⟩]
  expression : ∃ tokens, Token.lex text = .ok tokens ∧
    ∀ n, Syntax.expr (n + 1) tokens = .ok (.number .start y, [])
  constant : Syntax.parseSource ("const n = " ++ text ++ ";") = .ok ⟨[.const .start "n" (.number ⟨1, 11⟩ y)]⟩

theorem readsAs_literal {cs : List Char} (numeral : Numeral cs) (value : Decimal.read? (String.ofList cs) = some x)
    (negative : Bool) : ReadsAs (signText negative ++ String.ofList cs) (withSign negative x) where
  numeral := by
    refine ⟨signText negative, _, rfl, ?_, Token.lex_numeral numeral⟩
    cases negative with
    | false => exact .inl rfl
    | true => exact .inr rfl
  expression := by
    obtain ⟨pos, ended⟩ := Syntax.lexFrom_literal numeral Token.endsNumeral_nil negative .start []
    refine ⟨Syntax.literal negative (String.ofList cs) .start, ?_, fun n => ?_⟩
    · rw [List.append_nil, List.append_nil, Token.lexFrom, List.reverse_reverse] at ended
      rw [Token.lex, String.toList_append, String.toList_ofList, ended]
    · have read := Syntax.expr_literal value negative .start Syntax.quiet_nil n
      rwa [List.append_nil] at read
  constant := by
    obtain ⟨pos, lexed⟩ := Syntax.lex_constant numeral negative
    rw [Syntax.parseSource, lexed]
    dsimp only
    rw [Syntax.parse_constant value]

/-- The text of a finite number is read as the number, that of a zero as zero. -/
theorem text_is_numeral (finite : x.isFinite = true) :
    ∃ y, ReadsAs (text x) y ∧ (y == x) = true ∧ (y = if x == 0 then 0 else x) ∧ ((x == 0) = true → text x = "0") ∧
      ∀ n : ℤ, (read x).value = n → n.natAbs < 10 ^ 16 → text x = toString n := by
  obtain ⟨negative, z, written, finite', nonneg, signed⟩ := text_eq_signed finite
  obtain ⟨cs, numeral, digits⟩ := text_of_nonneg finite' nonneg
  obtain ⟨_, m, q, known⟩ := (isFinite_iff x).mp finite
  have value := read?_text nonneg
  rw [digits] at written value
  refine ⟨withSign negative z, ?_, ?_, signed, fun zero => ?_, fun n value small => text_integer finite value small⟩
  · rw [written]
    exact readsAs_literal numeral value negative
  · rw [signed]
    split
    · next zero => exact beq_symm zero
    · rw [beq_self_iff, ← Bool.not_eq_true, isNaN_iff, known]
      nofun
  · have none : m = 0 := by rwa [beq_zero_iff, known] at zero
    have value : (read x).value = (0 : ℤ) := by simp [known, Reading.value, none]
    exact text_integer finite value (by norm_num)

theorem text_is_numeral_least :
    ∃ y, ReadsAs (text (Float.ofBits 9223372036854775809)) y ∧ (y == Float.ofBits 9223372036854775809) = true := by
  obtain ⟨y, reads, same, -⟩ := @text_is_numeral (Float.ofBits 9223372036854775809) rfl
  exact ⟨y, reads, same⟩

end RetroScript.Number
