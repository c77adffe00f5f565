/-!
# Decimal numerals

A decimal is `coefficient · 10 ^ exponent`. Two layouts write it: `positional` never uses an
exponent mark, `scientific` does outside a middle range.
-/
namespace RetroScript

structure Decimal where
  coefficient : Nat
  exponent : Int
  deriving DecidableEq, Repr

namespace Decimal

/-- The digits of the coefficient, first digit first. -/
def digits (d : Decimal) : List Char := Nat.toDigits 10 d.coefficient

def zeros (n : Nat) : List Char := List.replicate n '0'

/-- Number of digits left of the point when all digits are written out; it may be negative. -/
def scale (d : Decimal) : Int := d.digits.length + d.exponent

/-- Digits with a point after the first `n` of them. -/
def pointed (n : Nat) (ds : List Char) : List Char := ds.take n ++ '.' :: ds.drop n

/-- All digits in place: no exponent mark, and no point in an integer. -/
def positional (d : Decimal) : List Char :=
  let ds := d.digits
  if 0 ≤ d.exponent then ds ++ zeros d.exponent.toNat
  else if 0 < d.scale then pointed d.scale.toNat ds
  else '0' :: '.' :: zeros (-d.scale).toNat ++ ds

/-- The exponent with its sign always written. -/
def exponentMark (e : Int) : List Char :=
  'e' :: (if 0 ≤ e then '+' else '-') :: Nat.toDigits 10 e.natAbs

/-- Digits in place for scales from -4 to 16, integers ending in `.0`; otherwise one digit before
the point and an exponent mark. -/
def scientific (d : Decimal) : List Char :=
  let ds := d.digits
  if 0 < d.scale ∧ d.scale ≤ 16 then
    if 0 ≤ d.exponent then ds ++ zeros d.exponent.toNat ++ ['.', '0'] else pointed d.scale.toNat ds
  else if -5 < d.scale ∧ d.scale ≤ 0 then '0' :: '.' :: zeros (-d.scale).toNat ++ ds
  else (if ds.length = 1 then ds else pointed 1 ds) ++ exponentMark (d.scale - 1)

end Decimal

end RetroScript
