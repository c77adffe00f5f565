import RetroScript.Proofs.Circles

/-!
# Half the width of a circle

A chord is the root of an integer, found through three roundings: to a binary number, of its root, and to an
integer. The root of an integer is never half way between two integers: `k * k + k` is the last whose root is
below `k + 1 / 2`, and the next is one more. For radii up to `2 ^ 25` this gap is wider than what the
roundings can do, so a chord is the nearest integer: `chord_nearest`.
-/
namespace RetroScript.Video

variable {n n' h h' r d : ℤ}

/-- The root of `n` is less than one half away from `h`. -/
structure NearestRoot (n h : ℤ) : Prop where
  nonneg : 0 ≤ h
  below : 4 * n < (2 * h + 1) ^ 2
  above : 0 < h → (2 * h - 1) ^ 2 ≤ 4 * n

theorem NearestRoot.mono (near : NearestRoot n h) (near' : NearestRoot n' h') (le : n ≤ n') : h ≤ h' := by
  by_contra more
  have nonneg := near'.nonneg
  have squares : (2 * h' + 1) ^ 2 ≤ (2 * h - 1) ^ 2 := pow_le_pow_left₀ (by omega) (by omega) 2
  have := near.above (by omega)
  have := near'.below
  omega

theorem NearestRoot.unique (near : NearestRoot n h) (near' : NearestRoot n h') : h = h' :=
  le_antisymm (near.mono near' le_rfl) (near'.mono near le_rfl)

theorem nearestRoot_square (nonneg : 0 ≤ r) : NearestRoot (r * r) r where
  nonneg := nonneg
  below := by nlinarith
  above _ := by nlinarith

theorem nearestRoot_halfWidth (small : r ≤ 33554432) (inside : |d| ≤ r) :
    NearestRoot (r * r - d * d) (halfWidth r d) := by
  obtain ⟨high, low⟩ := halfWidth_bounds small inside
  refine ⟨halfWidth_nonneg r d, by nlinarith, fun positive => ?_⟩
  have less := low.resolve_left positive.ne'
  nlinarith

/-- No other integer is as near. -/
theorem halfWidth_nearest (small : r ≤ 33554432) (inside : |d| ≤ r) {k : ℤ} (other : k ≠ halfWidth r d) :
    |(halfWidth r d : ℝ) - √(r * r - d * d)| < |(k : ℝ) - √(r * r - d * d)| := by
  have near : |(halfWidth r d : ℝ) - √(r * r - d * d)| < 1 / 2 := by
    have root := abs_roundedRoot_sub_lt (toNat_le_of_le small inside)
    have cast : (((r * r - d * d).toNat : ℕ) : ℝ) = r * r - d * d := by
      exact_mod_cast Int.toNat_of_nonneg (squares_le inside).1
    rw [cast] at root
    exact_mod_cast root
  have apart : (1 : ℝ) ≤ |(k : ℝ) - halfWidth r d| := by
    exact_mod_cast Int.one_le_abs (sub_ne_zero.mpr other)
  have triangle := abs_sub_le (k : ℝ) (√(r * r - d * d)) (halfWidth r d)
  rw [abs_sub_comm √(r * r - d * d : ℝ)] at triangle
  linarith

/-- A chord is the integer nearest to the exact root, the narrower the farther from the centre, and as long as
the radius at the centre. -/
theorem chord_nearest (small : r ≤ 2 ^ 25) (inside : |d| ≤ r) :
    ∃ h, chord r d = some h ∧ (∀ k, NearestRoot (r * r - d * d) k ↔ k = h) ∧
      (∀ k : ℤ, k ≠ h → |(h : ℝ) - √(r * r - d * d)| < |(k : ℝ) - √(r * r - d * d)|) ∧
      (∀ e, |d| ≤ |e| → |e| ≤ r → ∃ k ≤ h, chord r e = some k) ∧
      (d = 0 → h = r) := by
  have near := nearestRoot_halfWidth small inside
  refine ⟨halfWidth r d, ?_, ?_, ?_, ?_, ?_⟩
  · rw [chord_eq, if_pos inside]
  · intro k
    refine ⟨fun near' => near'.unique near, ?_⟩
    rintro rfl
    exact near
  · exact fun k => halfWidth_nearest small inside
  · intro e farther inside'
    refine ⟨halfWidth r e, ?_, by rw [chord_eq, if_pos inside']⟩
    refine (nearestRoot_halfWidth small inside').mono near ?_
    have squares := mul_self_le_mul_self (abs_nonneg d) farther
    rw [abs_mul_abs_self, abs_mul_abs_self] at squares
    omega
  · rintro rfl
    rw [mul_zero, sub_zero] at near
    exact near.unique (nearestRoot_square (le_trans (abs_nonneg 0) inside))

/-- The root of `k * k + k` for `k = 2 ^ 24 - 1` is closest to a half. -/
theorem chord_nearest_widest :
    (2 ^ 24 : ℤ) ≤ 2 ^ 25 ∧ |(4096 : ℤ)| ≤ 2 ^ 24 ∧
    (2 ^ 24 * 2 ^ 24 - 4096 * 4096 : ℤ) = 16777215 * 16777215 + 16777215 ∧
    chord (2 ^ 24) 4096 = some 16777215 := by
  have inside : |(4096 : ℤ)| ≤ 2 ^ 24 := by norm_num
  obtain ⟨h, found, only, -⟩ := chord_nearest (by norm_num) inside
  have half : 16777215 = h := (only 16777215).mp ⟨by norm_num, by norm_num, fun _ => by norm_num⟩
  refine ⟨by norm_num, inside, by norm_num, ?_⟩
  rw [found, ← half]

end RetroScript.Video
