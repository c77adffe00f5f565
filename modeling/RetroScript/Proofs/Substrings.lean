import RetroScript.Proofs.AxisLines
import RetroScript.Proofs.Elements

/-!
# Parts of texts

`substr` brings its start and its length into range one after the other, so it always gives a part of its text, for
every number. `substr_exact` says which one, that it is found without leaving the words, and that a text is what
stands before any place in it joined to what stands after.
-/

namespace RetroScript.Number

open Float.Model (UnpackedFloat)
open Float.Model.UnpackedFloat
open Float.Model.Format (binary64)

/-! ### Sums of counts -/

section

variable {m : ℕ} {q : ℤ} {x y : Float} {u v : ℚ}

/-- What is a number already is not rounded. -/
theorem round_exact (canonical : Canonical m q) (positive : 0 < m) {Q : ℕ} {E : ℤ} (nonzero : Q ≠ 0)
    (value : (Q : ℚ) * 2 ^ E = m * 2 ^ q) (s : Sign) : UnpackedFloat.round binary64 s Q E = .finite s m q positive := by
  obtain ⟨k, lowered, fine⟩ := round_lowered (E := E) nonzero s
  have same : (m : ℚ) * 2 ^ q / 2 ^ (E - k) = (Q * 2 ^ k : ℕ) := by
    rw [← value, zpow_sub₀ (by norm_num), zpow_natCast]
    push_cast
    field_simp
  rw [lowered]
  refine roundWithAccuracy_eq canonical positive (rounds_self m q) ?_ fine s
  rw [same]
  exact represents_exact _

theorem plain_of_positive (positive : 0 < v) {s : Bool} (value : (Reading.finite s m q).value = v) :
    s = false ∧ (m : ℚ) * 2 ^ q = v := by
  have nonneg := magnitude_nonneg m q
  cases s with
  | false => exact ⟨rfl, by simpa [Reading.value, factor] using value⟩
  | true =>
    simp only [Reading.value, factor, if_true] at value
    linarith

theorem Stands.unique (first : Stands x v) (second : Stands y v) (positive : 0 < v) : x = y := by
  obtain ⟨s, m, q, known, value⟩ := first
  obtain ⟨s', m', q', known', value'⟩ := second
  obtain ⟨rfl, size⟩ := plain_of_positive positive value
  obtain ⟨rfl, size'⟩ := plain_of_positive positive value'
  have canonical := proper_read x
  have canonical' := proper_read y
  rw [known] at canonical
  rw [known'] at canonical'
  have less := Canonical.lt_iff canonical canonical'
  have more := Canonical.lt_iff canonical' canonical
  rw [size, size', lt_self_iff_false, false_iff] at less more
  have exponent : q = q' := by omega
  have mantissa : m = m' := by omega
  exact eq_of_read (by rw [known, known', exponent, mantissa])

/-- A sum of positive numbers is exact if it is a number. -/
theorem stands_add (first : Stands x u) (second : Stands y v) (left : 0 < u) (right : 0 < v)
    (canonical : Canonical m q) (sum : (m : ℚ) * 2 ^ q = u + v) : Stands (x + y) (u + v) := by
  obtain ⟨s₁, m₁, q₁, known₁, value₁⟩ := first
  obtain ⟨s₂, m₂, q₂, known₂, value₂⟩ := second
  obtain ⟨rfl, size₁⟩ := plain_of_positive left value₁
  obtain ⟨rfl, size₂⟩ := plain_of_positive right value₂
  have some₁ : m₁ ≠ 0 := by
    rintro rfl
    simp [← size₁] at left
  have some₂ : m₂ ≠ 0 := by
    rintro rfl
    simp [← size₂] at right
  have positive : 0 < m := by
    refine Nat.pos_of_ne_zero ?_
    rintro rfl
    simp only [Nat.cast_zero, zero_mul] at sum
    linarith
  let E := min q₁ q₂
  let Q := m₁ <<< (q₁ - E).toNat + m₂ <<< (q₂ - E).toNat
  have whole : (Q : ℚ) * 2 ^ E = m * 2 ^ q := by
    rw [sum, ← value₁, ← value₂, value_lowered false m₁ (min_le_left q₁ q₂), value_lowered false m₂ (min_le_right q₁ q₂),
      ← add_mul]
    exact congrArg (· * (2 : ℚ) ^ E) (by exact_mod_cast rfl)
  have some : Q ≠ 0 := by
    intro zero
    rw [zero, sum, Nat.cast_zero, zero_mul] at whole
    linarith
  have added : UnpackedFloat.add binary64 (Reading.finite false m₁ q₁).unpacked (Reading.finite false m₂ q₂).unpacked =
      UnpackedFloat.round binary64 .positive Q E := by
    simp only [Reading.unpacked, some₁, some₂, dite_false]
    change UnpackedFloat.normalize binary64 (Q : ℤ) E .positive = _
    unfold UnpackedFloat.normalize
    rw [Int.compare_eq_gt.mpr (Int.natCast_pos.mpr (Nat.pos_of_ne_zero some))]
    rfl
  refine ⟨false, m, q, ?_, by simp [Reading.value, factor, sum]⟩
  rw [add_eq_pack, known₁, known₂, added, round_exact canonical positive some whole .positive, read_finite canonical positive]

theorem add_zero_of_nonneg (known : read x = .finite false m q) :
    x + Float.ofNat 0 = x ∧ Float.ofNat 0 + x = x := by
  have zero : read (Float.ofNat 0) = .finite false 0 (-1074) := rfl
  have proper : (Reading.finite false m q).Proper := known ▸ proper_read x
  have sums : UnpackedFloat.add binary64 (Reading.finite false m q).unpacked (Reading.finite false 0 (-1074)).unpacked =
        (Reading.finite false m q).unpacked ∧
      UnpackedFloat.add binary64 (Reading.finite false 0 (-1074)).unpacked (Reading.finite false m q).unpacked =
        (Reading.finite false m q).unpacked := by
    by_cases none : m = 0
    · simp only [Reading.unpacked, none, dite_true]
      exact ⟨rfl, rfl⟩
    · simp only [Reading.unpacked, none, dite_true, dite_false]
      exact ⟨rfl, rfl⟩
  constructor <;> apply eq_of_read
  · rw [add_eq_pack, known, zero, sums.1, read_pack proper]
  · rw [add_eq_pack, known, zero, sums.2, read_pack proper]

theorem ofNat_add_ofNat {a b : ℕ} (small : a + b < 9007199254740992) :
    Float.ofNat a + Float.ofNat b = Float.ofNat (a + b) := by
  obtain ⟨m₁, q₁, known₁, value₁⟩ := read_ofNat_small (show a < 9007199254740992 by omega)
  obtain ⟨m₂, q₂, known₂, value₂⟩ := read_ofNat_small (show b < 9007199254740992 by omega)
  obtain ⟨m₃, q₃, known₃, value₃⟩ := read_ofNat_small small
  have stands {x : Float} {m n : ℕ} {q : ℤ} (known : read x = .finite false m q) (value : (m : ℚ) * 2 ^ q = n) :
      Stands x n := ⟨false, m, q, known, by simp [Reading.value, factor, value]⟩
  rcases Nat.eq_zero_or_pos a with rfl | left
  · rw [(add_zero_of_nonneg known₂).2, Nat.zero_add]
  rcases Nat.eq_zero_or_pos b with rfl | right
  · exact (add_zero_of_nonneg known₁).1
  obtain ⟨m, q, canonical, -, value⟩ := exists_canonical (show 0 < a + b by omega) small
  rw [Nat.cast_add] at value
  have sum := stands_add (stands known₁ value₁) (stands known₂ value₂) (Nat.cast_pos.mpr left) (Nat.cast_pos.mpr right)
    canonical value
  rw [← Nat.cast_add] at sum
  exact sum.unique (stands known₃ value₃) (Nat.cast_pos.mpr (by omega))

end

end RetroScript.Number

namespace RetroScript.Builtin

open Heap (indexOf)
open Syntax (Operator)

/-! ### Parts -/

/-- The characters of `cs` at the positions from `first` up to but excluding `last`. -/
structure Covers (cs : List Char) (first last : ℕ) (part : List Char) : Prop where
  length : part.length = last - first
  chars : ∀ i < last - first, part[i]? = cs[first + i]?

/-- Where a part starts that is asked for from `start` on. -/
def firstOf (count : ℕ) (start : ℤ) : ℕ := (min (max start 0) count).toNat

/-- Where a part stops that is asked for with `length` characters. -/
def lastOf (count : ℕ) (start length : ℤ) : ℕ := (min (firstOf count start + max length 0) count).toNat

theorem slice_eq (cs : List Char) (start length : ℤ) :
    slice cs start length =
      (cs.drop (firstOf cs.length start)).take (lastOf cs.length start length - firstOf cs.length start) := by
  have first : (max 0 (min start (cs.length : ℤ))).toNat = firstOf cs.length start := by
    unfold firstOf
    omega
  have width : (max 0 (min (max 0 (min start (cs.length : ℤ)) + length) (cs.length : ℤ)) -
      max 0 (min start (cs.length : ℤ))).toNat = lastOf cs.length start length - firstOf cs.length start := by
    unfold lastOf firstOf
    omega
  unfold slice
  dsimp only
  rw [first, width]

theorem covers_slice (cs : List Char) (start length : ℤ) :
    Covers cs (firstOf cs.length start) (lastOf cs.length start length) (slice cs start length) := by
  have inside : lastOf cs.length start length ≤ cs.length := by
    unfold lastOf
    omega
  rw [slice_eq]
  constructor
  · rw [List.length_take, List.length_drop]
    omega
  · intro i less
    rw [List.getElem?_take_of_lt less, List.getElem?_drop]

example : slice "naïve".toList (-7) 3 = "naï".toList ∧ slice "naïve".toList 2 9223372036854775807 = "ïve".toList ∧
    slice "naïve".toList 2 (-1) = [] := by decide

/-! ### Words -/

/-- A position in a text; none if it is negative. -/
def position? (n : ℤ) : Option ℕ := if 0 ≤ n then some n.toNat else none

/-- `slice` in words: the sum is the nearest word, all other results have to be words as they are. -/
def slice? (cs : List Char) (start length : ℤ) : Option (List Char) := do
  let count ← Video.word? cs.length
  let first := max 0 (min start count)
  let last := max 0 (min (Number.clampWord (first + length)) count)
  if last ≤ first then return []
  else
    let width ← Video.word? (last - first)
    return (cs.drop (← position? first)).take (← position? width)

theorem slice?_eq {cs : List Char} (fits : Number.IsWord cs.length) (start length : ℤ) :
    slice? cs start length = some (slice cs start length) := by
  have word {n : ℤ} (small : 0 ≤ n ∧ n ≤ cs.length) : Video.word? n = some n := by
    unfold Number.IsWord Number.minWord Number.maxWord at fits
    unfold Video.word? Number.minWord Number.maxWord
    exact if_pos (by omega)
  have position {n : ℤ} (nonneg : 0 ≤ n) : position? n = some n.toNat := if_pos nonneg
  unfold slice? slice
  rw [word ⟨Int.natCast_nonneg _, le_rfl⟩, Option.bind_eq_bind, Option.bind_some]
  dsimp only
  generalize into : max 0 (min start (cs.length : ℤ)) = first
  -- a sum that is no word lies outside the text
  have sum : max 0 (min (Number.clampWord (first + length)) (cs.length : ℤ)) =
      max 0 (min (first + length) (cs.length : ℤ)) := by
    unfold Number.IsWord Number.minWord Number.maxWord at fits
    unfold Number.clampWord Number.minWord Number.maxWord
    omega
  rw [sum]
  generalize upTo : max 0 (min (first + length) (cs.length : ℤ)) = last
  split
  · next none =>
    have width : (last - first).toNat = 0 := by omega
    rw [width, List.take_zero]
    rfl
  · next some =>
    rw [word (by omega), Option.bind_some, position (show 0 ≤ first by omega), position (by omega)]
    rfl

/-! ### Calls -/

theorem call_substr (it : Interpreter) (s : String) (a b : Float) :
    substr.call it [.string s, .number a, .number b] =
      (.ok (.string (String.ofList (slice s.toList (indexOf a) (indexOf b)))), it) := by
  rw [← Heap.truncate_eq_indexOf, ← Heap.truncate_eq_indexOf]
  rfl

theorem call_substr_rest (it : Interpreter) (s : String) (a : Float) :
    substr.call it [.string s, .number a] =
      (.ok (.string (String.ofList (slice s.toList (indexOf a) s.toList.length))), it) := by
  rw [← Heap.truncate_eq_indexOf]
  rfl

theorem indexOf_zero : indexOf 0 = 0 := by
  have known : Number.read 0 = .finite false 0 (-1074) := rfl
  have none : Number.floorPart 0 (-1074) = 0 := Nat.zero_div _
  rw [← Heap.truncate_eq_indexOf, Number.truncate, Number.toWord, known]
  dsimp only
  rw [none]
  decide

theorem slice_append (cs : List Char) (start : ℤ) : slice cs 0 start ++ slice cs start cs.length = cs := by
  have front : firstOf cs.length 0 = 0 := by
    unfold firstOf
    omega
  have middle : lastOf cs.length 0 start = firstOf cs.length start := by
    unfold lastOf firstOf
    omega
  have back : lastOf cs.length start cs.length = cs.length := by
    unfold lastOf firstOf
    omega
  rw [slice_eq, slice_eq, front, middle, back, List.drop_zero, Nat.sub_zero, ← List.length_drop, List.take_length,
    List.take_append_drop]

/-- `t` and `u` are two parts of `s`, also by the lengths that are reported for them. -/
structure Splits (it : Interpreter) (s t u : String) : Prop where
  joined : Operator.add.apply it.heap (.string t) (.string u) = .ok (.string s)
  counts : t.length + u.length = s.length
  reported : ∀ w ∈ [t, u, s], len.call it [.string w] = (.ok (.number (Float.ofNat w.length)), it)
  /-- Numbers count exactly up to `2 ^ 53`. -/
  summed : s.length < 9007199254740992 →
    Operator.add.apply it.heap (.number (Float.ofNat t.length)) (.number (Float.ofNat u.length)) =
      .ok (.number (Float.ofNat s.length))

theorem splits_of_append {it : Interpreter} {s t u : String} (whole : t ++ u = s) : Splits it s t u := by
  subst whole
  have counts : t.length + u.length = (t ++ u).length := (String.length_append ..).symm
  refine ⟨rfl, counts, fun w _ => rfl, fun small => ?_⟩
  rw [← counts] at small ⊢
  exact congrArg (fun x => Except.ok (Value.number x)) (Number.ofNat_add_ofNat small)

/-- The part of a text for a start and a length, or without a length, is found for all numbers; and two parts that
meet at a place make up the text. -/
theorem substr_exact (it : Interpreter) (s : String) (a b : Float) :
    (∃ t : String, substr.call it [.string s, .number a, .number b] = (.ok (.string t), it) ∧
      Covers s.toList (firstOf s.length (indexOf a)) (lastOf s.length (indexOf a) (indexOf b)) t.toList ∧
      (Number.IsWord s.length → slice? s.toList (indexOf a) (indexOf b) = some t.toList)) ∧
    (∃ t : String, substr.call it [.string s, .number a] = (.ok (.string t), it) ∧
      Covers s.toList (firstOf s.length (indexOf a)) s.length t.toList ∧
      (Number.IsWord s.length → slice? s.toList (indexOf a) s.length = some t.toList)) ∧
    ∃ t u : String, substr.call it [.string s, .number 0, .number a] = (.ok (.string t), it) ∧
      substr.call it [.string s, .number a] = (.ok (.string u), it) ∧ Splits it s t u := by
  have count : s.toList.length = s.length := String.length_toList
  refine ⟨⟨_, call_substr it s a b, ?_, ?_⟩, ⟨_, call_substr_rest it s a, ?_, ?_⟩,
    ⟨_, _, call_substr it s 0 a, call_substr_rest it s a, ?_⟩⟩
  · rw [String.toList_ofList, ← count]
    exact covers_slice _ _ _
  · intro fits
    rw [String.toList_ofList]
    exact slice?_eq (by rwa [count]) _ _
  · have back : lastOf s.toList.length (indexOf a) s.toList.length = s.toList.length := by
      unfold lastOf firstOf
      omega
    have covers := covers_slice s.toList (indexOf a) s.toList.length
    rw [back] at covers
    rw [String.toList_ofList, ← count]
    exact covers
  · intro fits
    rw [String.toList_ofList, ← count]
    exact slice?_eq (by rwa [count]) _ _
  · apply splits_of_append
    rw [← String.ofList_append, indexOf_zero, slice_append, String.ofList_toList]

end RetroScript.Builtin
