import RetroScript.Decimal.Basic

/-!
# The shortest decimal that reads back

A number `m · 2 ^ q` is the rounding of every real in an interval around it. Among the decimals in
that interval `shortest` takes one on the coarsest grid of multiples of a power of ten, and of two
neighbours on that grid the nearer one.
-/
namespace RetroScript.Decimal

/-- Which of two equally near neighbours is taken. -/
inductive Tie where
  | up
  | even
  deriving DecidableEq, Repr

/-- The distance to the lower end of the interval, in quarters of `2 ^ q`: the gap below a power
of two is half the gap above it. -/
def lowerGap (m : Nat) (q : Int) : Nat :=
  if m = 4503599627370496 ∧ -1074 < q then 1 else 2

/-- Factors that make `d · 10 ^ p` and `n · 2 ^ (q - 2)` comparable as natural numbers. -/
def gridFactor (q p : Int) : Nat := Nat.pow 10 p.toNat * Nat.pow 2 (2 - q).toNat

def fractionFactor (q p : Int) : Nat := Nat.pow 2 (q - 2).toNat * Nat.pow 10 (-p).toNat

/-- Whether `d · 10 ^ p` rounds to `m · 2 ^ q`; the ends of the interval count if `m` is even. -/
def readsBack (m : Nat) (q p : Int) (d : Nat) : Bool :=
  let point := d * gridFactor q p
  let low := (4 * m - lowerGap m q) * fractionFactor q p
  let high := (4 * m + 2) * fractionFactor q p
  if m % 2 = 0 then low ≤ point && point ≤ high else low < point && point < high

/-- Of two neighbours on a grid, the one nearer to `m · 2 ^ q`. -/
def nearer (tie : Tie) (m : Nat) (q p : Int) (d : Nat) : Nat :=
  match compare (8 * m * fractionFactor q p) ((2 * d + 1) * gridFactor q p) with
  | .lt => d
  | .gt => d + 1
  | .eq =>
    match tie with
    | .up => d + 1
    | .even => d + d % 2

/-- The coefficient on the grid of multiples of `10 ^ p`, if some multiple reads back. -/
def onGrid? (tie : Tie) (m : Nat) (q p : Int) : Option Nat :=
  let d := 4 * m * fractionFactor q p / gridFactor q p
  match readsBack m q p d, readsBack m q p (d + 1) with
  | true, true => some (nearer tie m q p d)
  | true, false => some d
  | false, true => some (d + 1)
  | false, false => none

/-- The first grid, from `10 ^ p` downward, that has a decimal reading back. -/
def searchDown (tie : Tie) (m : Nat) (q : Int) : Nat → Int → Decimal
  | 0, p => ⟨0, p⟩
  | n + 1, p =>
    match onGrid? tie m q p with
    | some d => ⟨d, p⟩
    | none => searchDown tie m q n (p - 1)

/-- A power of ten above every decimal that reads back: `8 ≤ 10 ≤ 16` turns a bound by a power of
two into one by a power of ten. -/
def topExponent (m : Nat) (q : Int) : Int :=
  let bound := m.log2 + q + 2
  if 0 ≤ bound then bound / 3 + 1 else -(-bound / 4)

/-- The shortest decimal that rounds to `m · 2 ^ q`, for `0 < m`. -/
def shortest (tie : Tie) (m : Nat) (q : Int) : Decimal :=
  searchDown tie m q 400 (topExponent m q)

end RetroScript.Decimal
