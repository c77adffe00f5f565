import RetroScript.Json
import RetroScript.Proofs.NumberText

/-!
# JSON text determines the value

A value whose numbers are finite can be told from its text, in any layout, even if something follows
that does not go on with a numeral: `write_inj`. The text of a number reads as that number, and a
quoted string ends at the first quote that is not escaped.
-/

namespace RetroScript

namespace Decimal

/-! ### Numerals -/

/-- A numeral with a fraction, an exponent, or both. -/
structure Numeral where
  whole : List Char
  fraction : Option (List Char)
  exponent : Option ℤ
  wholeDigits : AllDigits whole
  some : whole ≠ []
  fractionDigits : AllDigits (fraction.getD [])
  marked : fraction.isSome ∨ exponent.isSome

namespace Numeral

def tail (n : Numeral) : List Char := n.fraction.elim [] ('.' :: ·) ++ n.exponent.elim [] exponentMark

def text (n : Numeral) : List Char := n.whole ++ n.tail

def coefficient (n : Numeral) : ℕ := digitsValue (n.whole ++ n.fraction.getD [])

def power (n : Numeral) : ℤ := n.exponent.getD 0 - (n.fraction.getD []).length

end Numeral

theorem readExponent?_mark (e : ℤ) :
    readExponent? ((if 0 ≤ e then '+' else '-') :: Nat.toDigits 10 e.natAbs) = some e := by
  have digits : AllDigits (Nat.toDigits 10 e.natAbs) := fun _ member =>
    Nat.isDigit_of_mem_toDigits (by decide) (by decide) member
  have span : spanDigits (Nat.toDigits 10 e.natAbs ++ []) = (Nat.toDigits 10 e.natAbs, []) :=
    spanDigits_append digits (by simp)
  have value : digitsValue (Nat.toDigits 10 e.natAbs) = e.natAbs := digitsValue_digits ⟨e.natAbs, 0⟩
  obtain ⟨c, cs, written⟩ := List.exists_cons_of_ne_nil (Nat.toDigits_ne_nil (b := 10) (n := e.natAbs))
  rw [List.append_nil, written] at span
  rw [written] at value ⊢
  unfold readExponent?
  by_cases nonneg : 0 ≤ e
  · have kept : (e.natAbs : ℤ) = e := by omega
    simp only [nonneg, if_true, span, value, kept]
    rfl
  · have turned : -(e.natAbs : ℤ) = e := by omega
    simp only [nonneg, if_false, span, value, turned]
    rfl

theorem readUnsigned?_numeral (n : Numeral) :
    readUnsigned? n.text = some (scaled n.coefficient n.power) := by
  obtain ⟨whole, fraction, exponent, wholeDigits, nonempty, fractionDigits, marked⟩ := n
  have stops : ∀ c ∈ (exponent.elim [] exponentMark).head?, c.isDigit = false := by
    cases exponent with
    | none => nofun
    | some e =>
      rintro c ⟨⟩
      rfl
  have second := spanDigits_append fractionDigits stops
  unfold readUnsigned? Numeral.text Numeral.tail Numeral.coefficient Numeral.power
  cases fraction with
  | none =>
    have first := spanDigits_append wholeDigits stops
    cases exponent with
    | none => simp at marked
    | some e =>
      simp only [Option.elim, exponentMark, List.nil_append] at first ⊢
      simp [first, nonempty, readExponent?_mark]
  | some ds =>
    have point : ∀ c ∈ ('.' :: (ds ++ exponent.elim [] exponentMark)).head?, c.isDigit = false := by simp
    have first := spanDigits_append wholeDigits point
    cases exponent with
    | none =>
      simp only [Option.elim, Option.getD_some, List.append_nil] at first second ⊢
      simp [first, second, nonempty]
    | some e =>
      simp only [Option.elim, Option.getD_some, exponentMark] at first second ⊢
      simp [first, second, nonempty, readExponent?_mark]

/-- The digits of a decimal with a point after the first `k + 1` of them. -/
def Numeral.pointed (d : Decimal) (k : ℕ) (exponent : Option ℤ) : Numeral where
  whole := d.digits.take (k + 1)
  fraction := d.digits.drop (k + 1)
  exponent := exponent
  wholeDigits c member := allDigits_digits d c (List.mem_of_mem_take member)
  some := by simp [digits, Nat.toDigits_ne_nil]
  fractionDigits c member := allDigits_digits d c (List.mem_of_mem_drop member)
  marked := .inl rfl

theorem Numeral.coefficient_pointed (d : Decimal) (k : ℕ) (exponent : Option ℤ) :
    (Numeral.pointed d k exponent).coefficient = d.coefficient := by
  change digitsValue (d.digits.take (k + 1) ++ d.digits.drop (k + 1)) = _
  rw [List.take_append_drop, digitsValue_digits]

theorem Numeral.power_pointed (d : Decimal) (k : ℕ) (exponent : Option ℤ) :
    (Numeral.pointed d k exponent).power = exponent.getD 0 - (d.digits.length - (k + 1) : ℕ) := by
  change exponent.getD 0 - ((d.digits.drop (k + 1)).length : ℤ) = _
  rw [List.length_drop]

/-- Some numeral that is written `cs` has the value of `d`. -/
def Spells (cs : List Char) (d : Decimal) : Prop :=
  ∃ n : Numeral, n.text = cs ∧ (n.coefficient : ℚ) * 10 ^ n.power = d.coefficient * 10 ^ d.exponent

theorem spells_padded (d : Decimal) (nonneg : 0 ≤ d.exponent) :
    Spells (d.digits ++ zeros d.exponent.toNat ++ ['.', '0']) d := by
  obtain ⟨k, power⟩ : ∃ k : ℕ, d.exponent = k := ⟨d.exponent.toNat, by omega⟩
  have nonempty : d.digits ++ zeros k ≠ [] := by simp [digits, Nat.toDigits_ne_nil]
  have written : digitsValue (d.digits ++ zeros k ++ zeros 1) = d.coefficient * 10 ^ k * 10 := by
    rw [digitsValue_append_zeros, digitsValue_append_zeros, digitsValue_digits, pow_one]
  refine ⟨⟨d.digits ++ zeros k, some ['0'], none, allDigits_append (allDigits_digits d) (allDigits_zeros k),
    nonempty, allDigits_zeros 1, .inl rfl⟩, ?_, ?_⟩
  · simp [Numeral.text, Numeral.tail, power]
  · change ((digitsValue (d.digits ++ zeros k ++ zeros 1) : ℕ) : ℚ) * 10 ^ (-1 : ℤ) = _
    rw [written, power, zpow_natCast, zpow_neg_one]
    push_cast
    rw [mul_assoc, mul_inv_cancel₀ (by norm_num), mul_one]

theorem spells_pointed (d : Decimal) {k : ℕ} {exponent : Option ℤ}
    (power : exponent.getD 0 - (d.digits.length - (k + 1) : ℕ) = d.exponent) :
    Spells (pointed (k + 1) d.digits ++ exponent.elim [] exponentMark) d := by
  refine ⟨.pointed d k exponent, ?_, ?_⟩
  · simp [Numeral.text, Numeral.tail, Numeral.pointed, pointed]
  · rw [Numeral.coefficient_pointed, Numeral.power_pointed, power]

theorem spells_small (d : Decimal) (small : d.scale ≤ 0) :
    Spells ('0' :: '.' :: zeros (-d.scale).toNat ++ d.digits) d := by
  have scale : d.scale = d.digits.length + d.exponent := rfl
  have written : digitsValue (zeros 1 ++ (zeros (-d.scale).toNat ++ d.digits)) = d.coefficient := by
    rw [digitsValue_zeros_append, digitsValue_zeros_append, digitsValue_digits]
  have power : 0 - ((zeros (-d.scale).toNat ++ d.digits).length : ℤ) = d.exponent := by
    simp only [zeros, List.length_append, List.length_replicate]
    omega
  refine ⟨⟨['0'], some (zeros (-d.scale).toNat ++ d.digits), none, allDigits_zeros 1, by simp,
    allDigits_append (allDigits_zeros _) (allDigits_digits d), .inl rfl⟩, ?_, ?_⟩
  · simp [Numeral.text, Numeral.tail]
  · change ((digitsValue (zeros 1 ++ (zeros (-d.scale).toNat ++ d.digits)) : ℕ) : ℚ) *
      10 ^ (0 - ((zeros (-d.scale).toNat ++ d.digits).length : ℤ)) = _
    rw [written, power]

theorem spells_single (d : Decimal) (single : d.digits.length = 1) :
    Spells (d.digits ++ exponentMark (d.scale - 1)) d := by
  have scale : d.scale = d.digits.length + d.exponent := rfl
  have power : d.scale - 1 - 0 = d.exponent := by omega
  refine ⟨⟨d.digits, none, some (d.scale - 1), allDigits_digits d, Nat.toDigits_ne_nil, nofun, .inr rfl⟩, ?_, ?_⟩
  · simp [Numeral.text, Numeral.tail]
  · change ((digitsValue (d.digits ++ []) : ℕ) : ℚ) * 10 ^ (d.scale - 1 - 0) = _
    rw [List.append_nil, digitsValue_digits, power]

theorem spells_scientific (d : Decimal) : Spells d.scientific d := by
  have scale : d.scale = d.digits.length + d.exponent := rfl
  have length : 0 < d.digits.length := List.length_pos_of_ne_nil Nat.toDigits_ne_nil
  unfold scientific
  dsimp only
  split
  · next middle =>
    split
    · next nonneg => exact spells_padded d nonneg
    · next negative =>
      -- The scale says how many digits stand before the point.
      obtain ⟨k, inside⟩ : ∃ k : ℕ, d.scale.toNat = k + 1 := ⟨d.scale.toNat - 1, by omega⟩
      have power : (none : Option ℤ).getD 0 - (d.digits.length - (k + 1) : ℕ) = d.exponent := by
        rw [Option.getD_none]
        omega
      have spelled := spells_pointed d power
      rwa [Option.elim_none, List.append_nil, ← inside] at spelled
  · split
    · next small => exact spells_small d small.2
    · split
      · next single => exact spells_single d single
      · have power : (some (d.scale - 1)).getD 0 - (d.digits.length - (0 + 1) : ℕ) = d.exponent := by
          rw [Option.getD_some]
          omega
        exact spells_pointed d power

/-! ### The characters of a numeral -/

/-- Whether a numeral can have this character. -/
def inNumeral (c : Char) : Bool := c.isDigit || c = '.' || c = 'e' || c = '+' || c = '-'

theorem AllDigits.inNumeral {ds : List Char} (digits : AllDigits ds) : ∀ c ∈ ds, inNumeral c = true := by
  intro c member
  simp [Decimal.inNumeral, digits c member]

theorem inNumeral_exponentMark (e : ℤ) : ∀ c ∈ exponentMark e, inNumeral c = true := by
  have digits : AllDigits (Nat.toDigits 10 e.natAbs) := allDigits_digits ⟨e.natAbs, 0⟩
  intro c member
  rcases List.mem_cons.mp member with rfl | member
  · rfl
  rcases List.mem_cons.mp member with rfl | member
  · split <;> rfl
  · exact digits.inNumeral c member

namespace Numeral

variable (n : Numeral)

theorem head_text : ∃ c cs, n.text = c :: cs ∧ c.isDigit = true := by
  obtain ⟨c, cs, written⟩ := List.exists_cons_of_ne_nil n.some
  refine ⟨c, cs ++ n.tail, ?_, n.wholeDigits c (by simp [written])⟩
  rw [text, written, List.cons_append]

theorem inNumeral_text : ∀ c ∈ n.text, inNumeral c = true := by
  intro c member
  rcases List.mem_append.mp member with whole | tail
  · exact n.wholeDigits.inNumeral c whole
  rcases List.mem_append.mp tail with fraction | exponent
  · cases found : n.fraction with
    | none => simp [found] at fraction
    | some ds =>
      have digits := n.fractionDigits
      rw [found] at fraction digits
      rcases List.mem_cons.mp fraction with rfl | fraction
      · rfl
      · exact digits.inNumeral c fraction
  · cases found : n.exponent with
    | none => simp [found] at exponent
    | some e =>
      rw [found] at exponent
      exact inNumeral_exponentMark e c exponent

/-- A numeral is not all digits, so it is never taken for a natural number. -/
theorem not_allDigits_text : ¬ AllDigits n.text := by
  intro digits
  rcases n.marked with marked | marked
  · obtain ⟨ds, found⟩ := Option.isSome_iff_exists.mp marked
    have point : '.' ∈ n.text := by simp [text, tail, found]
    exact absurd (digits '.' point) (by decide)
  · obtain ⟨e, found⟩ := Option.isSome_iff_exists.mp marked
    have mark : 'e' ∈ n.text := by simp [text, tail, found, exponentMark]
    exact absurd (digits 'e' mark) (by decide)

end Numeral

end Decimal

/-! ### Numbers -/

/-- Neither infinite nor a mark for no number. -/
def Number.Finite (x : Float) : Prop := ∃ negative mantissa exponent, Number.read x = .finite negative mantissa exponent

namespace Json

open Decimal (Numeral inNumeral)

def signed (negative : Bool) (cs : List Char) : List Char := if negative then '-' :: cs else cs

theorem exists_magnitude {m : ℕ} {q : ℤ} (canonical : Number.Canonical m q) :
    ∃ n : Numeral, n.text = (if m = 0 then ['0', '.', '0'] else (Decimal.shortest .even m q).scientific) ∧
      Number.read (Decimal.scaled n.coefficient n.power) = .finite false m q := by
  split
  · next zero =>
    subst zero
    obtain rfl : q = -1074 := by
      rcases canonical.full with full | least
      · omega
      · exact least
    refine ⟨⟨['0'], some ['0'], none, Decimal.allDigits_zeros 1, by simp, Decimal.allDigits_zeros 1, .inl rfl⟩, rfl, ?_⟩
    rfl
  · next nonzero =>
    have positive : 0 < m := Nat.pos_of_ne_zero nonzero
    have back := (Decimal.readsBack_iff positive).mp (Decimal.shortest_readsBack .even canonical positive)
    obtain ⟨n, written, value⟩ := Decimal.spells_scientific (Decimal.shortest .even m q)
    rw [← value] at back
    exact ⟨n, written, Number.read_scaled canonical positive back⟩

theorem numberText_eq {x : Float} {negative : Bool} {m : ℕ} {q : ℤ}
    (same : Number.read x = .finite negative m q) :
    ∃ n : Numeral, numberText x = signed negative n.text ∧
      Number.read (Decimal.scaled n.coefficient n.power) = .finite false m q := by
  have proper := Number.proper_read x
  rw [same] at proper
  obtain ⟨n, written, value⟩ := exists_magnitude proper
  refine ⟨n, ?_, value⟩
  unfold numberText
  rw [same]
  dsimp only
  rw [← written]
  cases negative <;> rfl

theorem read?_numberText {x : Float} (finite : Number.Finite x) :
    Decimal.read? (String.ofList (numberText x)) = some x := by
  obtain ⟨negative, m, q, same⟩ := finite
  obtain ⟨n, written, value⟩ := numberText_eq same
  obtain ⟨c, cs, text, digit⟩ := n.head_text
  have reads := Decimal.readUnsigned?_numeral n
  rw [written]
  cases negative with
  | false =>
    change Decimal.read? (String.ofList n.text) = _
    rw [text] at reads ⊢
    rw [Decimal.read?_of_digit digit, reads]
    exact congrArg some (Number.eq_of_read (by rw [same, value]))
  | true =>
    change Decimal.read? (String.ofList ('-' :: n.text)) = _
    unfold Decimal.read?
    rw [String.toList_ofList]
    change (Decimal.readMagnitude? n.text).map (-·) = some x
    rw [text] at reads ⊢
    rw [Decimal.readMagnitude?_of_digit digit, reads]
    exact congrArg some (Number.eq_of_read (by rw [Number.read_neg, same, value]; rfl))

theorem numberText_inj {x y : Float} (finite : Number.Finite x) (finite' : Number.Finite y)
    (same : numberText x = numberText y) : x = y := by
  have read := read?_numberText finite
  rw [same, read?_numberText finite'] at read
  exact (Option.some.inj read).symm

theorem inNumeral_numberText {x : Float} (finite : Number.Finite x) : ∀ c ∈ numberText x, inNumeral c = true := by
  obtain ⟨negative, m, q, same⟩ := finite
  obtain ⟨n, written, _⟩ := numberText_eq same
  intro c member
  rw [written] at member
  cases negative with
  | false => exact n.inNumeral_text c member
  | true =>
    rcases List.mem_cons.mp member with rfl | member
    · rfl
    · exact n.inNumeral_text c member

theorem numberText_ne_digits {x : Float} (finite : Number.Finite x) {ds : List Char}
    (digits : Decimal.AllDigits ds) : numberText x ≠ ds := by
  obtain ⟨negative, m, q, same⟩ := finite
  obtain ⟨n, written, _⟩ := numberText_eq same
  rintro rfl
  rw [written] at digits
  cases negative with
  | false => exact n.not_allDigits_text digits
  | true => exact n.not_allDigits_text fun c member => digits c (List.mem_cons_of_mem _ member)

/-! ### Strings -/

def hexValue (c : Char) : ℕ := if c.isDigit then c.toNat - 48 else c.toNat - 87

/-- The character that stands after a backslash, and what follows it. -/
def unescapeMark : List Char → Option (Char × List Char)
  | 'n' :: rest => some ('\n', rest)
  | 'r' :: rest => some ('\r', rest)
  | 't' :: rest => some ('\t', rest)
  | 'b' :: rest => some (Char.ofNat 8, rest)
  | 'f' :: rest => some (Char.ofNat 12, rest)
  | 'u' :: '0' :: '0' :: high :: low :: rest => some (Char.ofNat (16 * hexValue high + hexValue low), rest)
  | c :: rest => some (c, rest)
  | [] => none

/-- The first character inside quotes, and what follows it. -/
def unescape : List Char → Option (Char × List Char)
  | c :: rest => if c = '\\' then unescapeMark rest else some (c, rest)
  | [] => none

theorem unescape_control (n : Fin 32) (rest : List Char) :
    unescape (escape (Char.ofNat n) ++ rest) = some (Char.ofNat n, rest) := by
  fin_cases n <;> rfl

theorem unescape_escape (c : Char) (rest : List Char) : unescape (escape c ++ rest) = some (c, rest) := by
  by_cases control : c.toNat < 32
  · -- Line feeds and the like have an escape of their own, all others go by their number.
    have same := unescape_control ⟨c.toNat, control⟩ rest
    rwa [Char.ofNat_toNat] at same
  · unfold escape
    split
    · rfl
    · rfl
    · rfl
    · rfl
    · rfl
    · next backslash _ _ _ =>
      rw [if_neg (by omega), if_neg (by omega), if_neg control]
      exact if_neg backslash

theorem escape_inj {c d : Char} {r s : List Char} (same : escape c ++ r = escape d ++ s) : c = d ∧ r = s := by
  have read := unescape_escape c r
  rw [same, unescape_escape] at read
  exact ⟨(Prod.mk.inj (Option.some.inj read)).1.symm, (Prod.mk.inj (Option.some.inj read)).2.symm⟩

/-- No character is written with a quote in front. -/
theorem escape_ne_quote (c : Char) (r s : List Char) : escape c ++ r ≠ '"' :: s := by
  intro same
  have read := unescape_escape c r
  rw [same] at read
  obtain ⟨rfl, _⟩ := Prod.mk.inj (Option.some.inj read)
  cases same

theorem quoted_inj {cs ds : List Char} {r s : List Char}
    (same : cs.flatMap escape ++ '"' :: r = ds.flatMap escape ++ '"' :: s) : cs = ds ∧ r = s := by
  induction cs generalizing ds with
  | nil =>
    cases ds with
    | nil => exact ⟨rfl, (List.cons.inj same).2⟩
    | cons d ds =>
      rw [List.flatMap_cons, List.append_assoc] at same
      exact absurd same.symm (escape_ne_quote d _ _)
  | cons c cs ih =>
    cases ds with
    | nil =>
      rw [List.flatMap_cons, List.append_assoc] at same
      exact absurd same (escape_ne_quote c _ _)
    | cons d ds =>
      rw [List.flatMap_cons, List.flatMap_cons, List.append_assoc, List.append_assoc] at same
      obtain ⟨rfl, later⟩ := escape_inj same
      obtain ⟨rfl, rest⟩ := ih later
      exact ⟨rfl, rest⟩

theorem quote_inj {s t : String} {r u : List Char} (same : quote s r = quote t u) : s = t ∧ r = u := by
  obtain ⟨text, rest⟩ := quoted_inj (List.cons.inj same).2
  exact ⟨String.toList_injective text, rest⟩

/-! ### First characters -/

/-- What the first character of a text tells about the value. -/
inductive Lead where
  | null | bool | numeral | string | list | object

def lead : Json → Lead
  | .null => .null
  | .bool _ => .bool
  | .natural _ | .number _ => .numeral
  | .string _ => .string
  | .list _ => .list
  | .object _ => .object

def leadOf? (c : Char) : Option Lead :=
  if c.isDigit then some .numeral
  else
    match c with
    | '-' => some .numeral
    | 'n' => some .null
    | 't' | 'f' => some .bool
    | '"' => some .string
    | '[' => some .list
    | '\x7b' => some .object
    | _ => none

mutual

/-- All numbers are finite. -/
def Finite : Json → Prop
  | .number x => Number.Finite x
  | .list items => FiniteItems items
  | .object fields => FiniteFields fields
  | _ => True

def FiniteItems : List Json → Prop
  | [] => True
  | x :: xs => x.Finite ∧ FiniteItems xs

def FiniteFields : List (String × Json) → Prop
  | [] => True
  | (_, x) :: fields => x.Finite ∧ FiniteFields fields

end

theorem head_numberText {x : Float} (finite : Number.Finite x) :
    ∃ c cs, numberText x = c :: cs ∧ leadOf? c = some .numeral := by
  obtain ⟨negative, m, q, same⟩ := finite
  obtain ⟨n, written, _⟩ := numberText_eq same
  cases negative with
  | true => exact ⟨'-', n.text, written, rfl⟩
  | false =>
    obtain ⟨c, cs, text, digit⟩ := n.head_text
    exact ⟨c, cs, written.trans text, if_pos digit⟩

theorem lead_write (l : Layout) (depth : ℕ) {j : Json} (finite : j.Finite) (rest : List Char) :
    ∃ c cs, j.write l depth rest = c :: cs ∧ leadOf? c = some j.lead := by
  cases j with
  | null => exact ⟨'n', _, rfl, rfl⟩
  | bool b => cases b <;> exact ⟨_, _, rfl, rfl⟩
  | natural n =>
    obtain ⟨c, cs, written⟩ := List.exists_cons_of_ne_nil (Nat.toDigits_ne_nil (b := 10) (n := n))
    have digit : c.isDigit = true := Decimal.allDigits_digits ⟨n, 0⟩ c (by simp [Decimal.digits, written])
    refine ⟨c, cs ++ rest, ?_, if_pos digit⟩
    rw [write, written, List.cons_append]
  | number x =>
    obtain ⟨c, cs, written, numeral⟩ := head_numberText finite
    refine ⟨c, cs ++ rest, ?_, numeral⟩
    rw [write, written, List.cons_append]
  | string s => exact ⟨'"', _, rfl, rfl⟩
  | list items => cases items <;> exact ⟨'[', _, rfl, rfl⟩
  | object fields =>
    cases fields with
    | nil => exact ⟨'\x7b', _, rfl, rfl⟩
    | cons field fields => exact ⟨'\x7b', _, rfl, rfl⟩

theorem lead_eq {l : Layout} {depth : ℕ} {j k : Json} (finite : j.Finite) (finite' : k.Finite)
    {r s : List Char} (same : j.write l depth r = k.write l depth s) : j.lead = k.lead := by
  obtain ⟨c, cs, written, found⟩ := lead_write l depth finite r
  obtain ⟨d, ds, written', found'⟩ := lead_write l depth finite' s
  rw [written, written'] at same
  rw [(List.cons.inj same).1, found'] at found
  exact (Option.some.inj found).symm

/-! ### Ends -/

/-- Does not go on with a numeral. -/
def Stops (rest : List Char) : Prop := ∀ c ∈ rest.head?, inNumeral c = false

/-- Goes on with neither a numeral nor another item. -/
def Closes (rest : List Char) : Prop := ∀ c ∈ rest.head?, inNumeral c = false ∧ c ≠ ','

theorem numeral_inj {ds es r s : List Char} (first : ∀ c ∈ ds, inNumeral c = true)
    (second : ∀ c ∈ es, inNumeral c = true) (stops : Stops r) (stops' : Stops s)
    (same : ds ++ r = es ++ s) : ds = es ∧ r = s := by
  have ended : ∀ {rest : List Char}, Stops rest → rest.takeWhile inNumeral = [] := by
    intro rest stops
    cases rest with
    | nil => rfl
    | cons c rest => exact List.takeWhile_cons_of_neg (by simp [stops c rfl])
  have equal : ds = es := by
    have taken := congrArg (List.takeWhile inNumeral) same
    rwa [List.takeWhile_append_of_pos first, List.takeWhile_append_of_pos second, ended stops, ended stops',
      List.append_nil, List.append_nil] at taken
  subst equal
  exact ⟨rfl, List.append_cancel_left same⟩

theorem closes_gap (l : Layout) (depth : ℕ) {c : Char} (closing : c = ']' ∨ c = '\x7d') (rest : List Char) :
    Closes (l.gap depth ++ c :: rest) := by
  intro d head
  cases gap : l.gap depth with
  | nil =>
    rw [gap] at head
    cases head
    rcases closing with rfl | rfl <;> decide
  | cons e es =>
    rw [gap] at head
    cases head
    rcases l.blank depth d (by simp [gap]) with rfl | rfl <;> decide

theorem stops_items (l : Layout) (depth : ℕ) (xs : List Json) {rest : List Char} (closes : Closes rest) :
    Stops (writeItems l depth xs rest) := by
  cases xs with
  | nil => exact fun c head => (closes c head).1
  | cons x xs =>
    rintro c ⟨⟩
    rfl

theorem stops_fields (l : Layout) (depth : ℕ) (fields : List (String × Json)) {rest : List Char}
    (closes : Closes rest) : Stops (writeFields l depth fields rest) := by
  cases fields with
  | nil => exact fun c head => (closes c head).1
  | cons field fields =>
    rintro c ⟨⟩
    rfl

/-- A list that has items does not close at once. -/
theorem gap_ne (l : Layout) (depth : ℕ) {c : Char} (closing : c = ']' ∨ c = '\x7d') {text : List Char}
    (starts : ∀ cs, text ≠ c :: cs) (rest : List Char) : l.gap depth ++ text ≠ c :: rest := by
  intro same
  cases gap : l.gap depth with
  | nil =>
    rw [gap, List.nil_append] at same
    exact starts rest same
  | cons e es =>
    rw [gap] at same
    obtain rfl := (List.cons.inj same).1
    rcases l.blank depth e (by simp [gap]) with rfl | rfl <;> rcases closing with closing | closing <;> cases closing

theorem gap_write_ne (l : Layout) (depth : ℕ) {j : Json} (finite : j.Finite) (r s : List Char) :
    l.gap depth ++ j.write l depth r ≠ ']' :: s := by
  refine gap_ne l depth (Or.inl rfl) (fun cs same => ?_) s
  obtain ⟨c, _, written, found⟩ := lead_write l depth finite r
  rw [same] at written
  rw [← (List.cons.inj written).1] at found
  cases found

theorem gap_quote_ne (l : Layout) (depth : ℕ) (key : String) (r s : List Char) :
    l.gap depth ++ quote key r ≠ '\x7d' :: s :=
  gap_ne l depth (Or.inr rfl) (fun _ same => by cases (List.cons.inj same).1) s

/-! ### Values -/

theorem word_inj {b b' : Bool} {r s : List Char}
    (same : word (if b then "true" else "false") r = word (if b' then "true" else "false") s) :
    b = b' ∧ r = s := by
  cases b <;> cases b'
  · exact ⟨rfl, List.append_cancel_left same⟩
  · cases (List.cons.inj same).1
  · cases (List.cons.inj same).1
  · exact ⟨rfl, List.append_cancel_left same⟩

theorem digits_inj {n m : ℕ} {r s : List Char} (stops : Stops r) (stops' : Stops s)
    (same : Nat.toDigits 10 n ++ r = Nat.toDigits 10 m ++ s) : n = m ∧ r = s := by
  have digits : ∀ k : ℕ, Decimal.AllDigits (Nat.toDigits 10 k) := fun k => Decimal.allDigits_digits ⟨k, 0⟩
  obtain ⟨text, rest⟩ := numeral_inj (digits n).inNumeral (digits m).inNumeral stops stops' same
  have value := Decimal.digitsValue_digits ⟨n, 0⟩
  rw [show (⟨n, 0⟩ : Decimal).digits = (⟨m, 0⟩ : Decimal).digits from text, Decimal.digitsValue_digits] at value
  exact ⟨value.symm, rest⟩

theorem digits_ne_number {n : ℕ} {x : Float} (finite : Number.Finite x) {r s : List Char} (stops : Stops r)
    (stops' : Stops s) : Nat.toDigits 10 n ++ r ≠ numberText x ++ s := by
  have digits : Decimal.AllDigits (Nat.toDigits 10 n) := Decimal.allDigits_digits ⟨n, 0⟩
  intro same
  have text := (numeral_inj digits.inNumeral (inNumeral_numberText finite) stops stops' same).1
  exact numberText_ne_digits finite digits text.symm

mutual

theorem write_inj (l : Layout) : ∀ (j k : Json) {depth : ℕ} {r s : List Char}, j.Finite → k.Finite →
    Stops r → Stops s → j.write l depth r = k.write l depth s → j = k ∧ r = s
  | .null, k, _, _, _, finite, finite', _, _, same => by
    have leads := lead_eq finite finite' same
    cases k with
    | null => exact ⟨rfl, List.append_cancel_left same⟩
    | _ => cases leads
  | .bool b, k, _, _, _, finite, finite', _, _, same => by
    have leads := lead_eq finite finite' same
    cases k with
    | bool b' =>
      obtain ⟨rfl, rest⟩ := word_inj same
      exact ⟨rfl, rest⟩
    | _ => cases leads
  | .natural n, k, _, _, _, finite, finite', stops, stops', same => by
    have leads := lead_eq finite finite' same
    cases k with
    | natural m =>
      obtain ⟨rfl, rest⟩ := digits_inj stops stops' same
      exact ⟨rfl, rest⟩
    | number x => exact absurd same (digits_ne_number finite' stops stops')
    | _ => cases leads
  | .number x, k, _, _, _, finite, finite', stops, stops', same => by
    have leads := lead_eq finite finite' same
    cases k with
    | natural m => exact absurd same.symm (digits_ne_number finite stops' stops)
    | number y =>
      obtain ⟨text, rest⟩ := numeral_inj (inNumeral_numberText finite) (inNumeral_numberText finite') stops stops' same
      exact ⟨congrArg number (numberText_inj finite finite' text), rest⟩
    | _ => cases leads
  | .string t, k, _, _, _, finite, finite', _, _, same => by
    have leads := lead_eq finite finite' same
    cases k with
    | string u =>
      obtain ⟨rfl, rest⟩ := quote_inj same
      exact ⟨rfl, rest⟩
    | _ => cases leads
  | .list [], k, depth, r, s, finite, finite', _, _, same => by
    have leads := lead_eq finite finite' same
    cases k with
    | list items =>
      cases items with
      | nil => exact ⟨rfl, (List.cons.inj (List.cons.inj same).2).2⟩
      | cons y ys => exact absurd (List.cons.inj same).2.symm (gap_write_ne l _ finite'.1 _ _)
    | _ => cases leads
  | .list (x :: xs), k, depth, r, s, finite, finite', _, _, same => by
    have leads := lead_eq finite finite' same
    cases k with
    | list items =>
      cases items with
      | nil => exact absurd (List.cons.inj same).2 (gap_write_ne l _ finite.1 _ _)
      | cons y ys =>
        -- Both lists have the same gaps, so the first items start together, and the others follow on from them.
        have closes : ∀ rest, Closes (l.gap depth ++ ']' :: rest) := closes_gap l depth (Or.inl rfl)
        obtain ⟨rfl, later⟩ := write_inj l x y finite.1 finite'.1 (stops_items l _ xs (closes r))
          (stops_items l _ ys (closes s)) (List.append_cancel_left (List.cons.inj same).2)
        obtain ⟨rfl, last⟩ := writeItems_inj l xs ys finite.2 finite'.2 (closes r) (closes s) later
        exact ⟨rfl, (List.cons.inj (List.append_cancel_left last)).2⟩
    | _ => cases leads
  | .object [], k, depth, r, s, finite, finite', _, _, same => by
    have leads := lead_eq finite finite' same
    cases k with
    | object fields =>
      cases fields with
      | nil => exact ⟨rfl, (List.cons.inj (List.cons.inj same).2).2⟩
      | cons field fields => exact absurd (List.cons.inj same).2.symm (gap_quote_ne l _ _ _ _)
    | _ => cases leads
  | .object ((key, x) :: fields), k, depth, r, s, finite, finite', _, _, same => by
    have leads := lead_eq finite finite' same
    cases k with
    | object fields' =>
      cases fields' with
      | nil => exact absurd (List.cons.inj same).2 (gap_quote_ne l _ _ _ _)
      | cons field fields' =>
        have closes : ∀ rest, Closes (l.gap depth ++ '\x7d' :: rest) := closes_gap l depth (Or.inr rfl)
        obtain ⟨key', y⟩ := field
        obtain ⟨rfl, value⟩ := quote_inj (List.append_cancel_left (List.cons.inj same).2)
        obtain ⟨rfl, later⟩ := write_inj l x y finite.1 finite'.1 (stops_fields l _ fields (closes r))
          (stops_fields l _ fields' (closes s)) (List.append_cancel_left value)
        obtain ⟨rfl, last⟩ := writeFields_inj l fields fields' finite.2 finite'.2 (closes r) (closes s) later
        exact ⟨rfl, (List.cons.inj (List.append_cancel_left last)).2⟩
    | _ => cases leads
termination_by structural j => j

theorem writeItems_inj (l : Layout) : ∀ (xs ys : List Json) {depth : ℕ} {r s : List Char}, FiniteItems xs →
    FiniteItems ys → Closes r → Closes s → writeItems l depth xs r = writeItems l depth ys s → xs = ys ∧ r = s
  | [], [], _, _, _, _, _, _, _, same => ⟨rfl, same⟩
  | [], _ :: _, _, _, _, _, _, closes, _, same => by
    subst same
    exact absurd rfl (closes ',' rfl).2
  | _ :: _, [], _, _, _, _, _, _, closes, same => by
    subst same
    exact absurd rfl (closes ',' rfl).2
  | x :: xs, y :: ys, depth, r, s, finite, finite', closes, closes', same => by
    obtain ⟨rfl, later⟩ := write_inj l x y finite.1 finite'.1 (stops_items l _ xs closes)
      (stops_items l _ ys closes') (List.append_cancel_left (List.cons.inj same).2)
    obtain ⟨rfl, rest⟩ := writeItems_inj l xs ys finite.2 finite'.2 closes closes' later
    exact ⟨rfl, rest⟩
termination_by structural j => j

theorem writeFields_inj (l : Layout) : ∀ (xs ys : List (String × Json)) {depth : ℕ} {r s : List Char},
    FiniteFields xs → FiniteFields ys → Closes r → Closes s →
    writeFields l depth xs r = writeFields l depth ys s → xs = ys ∧ r = s
  | [], [], _, _, _, _, _, _, _, same => ⟨rfl, same⟩
  | [], (_, _) :: _, _, _, _, _, _, closes, _, same => by
    subst same
    exact absurd rfl (closes ',' rfl).2
  | (_, _) :: _, [], _, _, _, _, _, _, closes, same => by
    subst same
    exact absurd rfl (closes ',' rfl).2
  | (key, x) :: xs, (key', y) :: ys, depth, r, s, finite, finite', closes, closes', same => by
    obtain ⟨rfl, value⟩ := quote_inj (List.append_cancel_left (List.cons.inj same).2)
    obtain ⟨rfl, later⟩ := write_inj l x y finite.1 finite'.1 (stops_fields l _ xs closes)
      (stops_fields l _ ys closes') (List.append_cancel_left value)
    obtain ⟨rfl, rest⟩ := writeFields_inj l xs ys finite.2 finite'.2 closes closes' later
    exact ⟨rfl, rest⟩
termination_by structural j => j

end

theorem text_inj (l : Layout) {j k : Json} (finite : j.Finite) (finite' : k.Finite) :
    String.ofList (j.write l 0 []) = String.ofList (k.write l 0 []) ↔ j = k := by
  have ends : Stops [] := by simp [Stops]
  constructor
  · intro same
    exact (write_inj l j k finite finite' ends ends (String.ofList_injective same)).1
  · rintro rfl
    rfl

end Json

end RetroScript
