/-!
# Numbers as binary fractions

Every finite number is `± mantissa · 2 ^ exponent` with natural mantissa. `read` takes a number
apart into that form; integer parts, nearest integers and remainders are then exact integer
arithmetic.
-/
namespace RetroScript.Number

/-- What a number is. Zero is finite with mantissa zero and keeps its sign. -/
inductive Reading where
  | nan
  | infinite (negative : Bool)
  | finite (negative : Bool) (mantissa : Nat) (exponent : Int)
  deriving DecidableEq, Repr

/-- Takes a number apart: one sign bit, eleven exponent bits, fifty-two fraction bits. -/
def read (x : Float) : Reading :=
  let bits := x.toBits.toNat
  let negative := bits / 9223372036854775808 == 1
  let biased : Nat := bits / 4503599627370496 % 2048
  let fraction : Nat := bits % 4503599627370496
  if biased = 2047 then
    if fraction = 0 then .infinite negative else .nan
  else if biased = 0 then .finite negative fraction (-1074)
  else .finite negative (4503599627370496 + fraction) ((biased : Int) - 1075)

def nan : Float := 0.0 / 0.0

/-- Puts a sign on a number that has none. -/
def withSign (negative : Bool) (x : Float) : Float :=
  if negative then -x else x

/-- Puts a sign on a magnitude. -/
def signed (negative : Bool) (n : Nat) : Int :=
  if negative then -(n : Int) else n

/-- The integer part of `mantissa · 2 ^ exponent`. -/
def floorPart (mantissa : Nat) (exponent : Int) : Nat :=
  if 0 ≤ exponent then mantissa * Nat.pow 2 exponent.toNat
  else mantissa / Nat.pow 2 (-exponent).toNat

/-- The integer nearest to `mantissa · 2 ^ exponent`; a half goes up. -/
def nearestPart (mantissa : Nat) (exponent : Int) : Nat :=
  if 0 ≤ exponent then mantissa * Nat.pow 2 exponent.toNat
  else (mantissa + Nat.pow 2 ((-exponent).toNat - 1)) / Nat.pow 2 (-exponent).toNat

/-! ### Words of sixty-four bits -/

def minWord : Int := -9223372036854775808

def maxWord : Int := 9223372036854775807

/-- The nearest integer that fits a signed word of sixty-four bits. -/
def clampWord (n : Int) : Int := max minWord (min n maxWord)

/-- Applies `part` to the magnitude and clamps to a signed word; what is no number counts as zero. -/
def toWord (part : Nat → Int → Nat) (x : Float) : Int :=
  match read x with
  | .nan => 0
  | .infinite negative => if negative then minWord else maxWord
  | .finite negative mantissa exponent => clampWord (signed negative (part mantissa exponent))

/-- The integer part toward zero, clamped to a signed word. -/
def truncate (x : Float) : Int := toWord floorPart x

/-- The nearest integer, halves away from zero, clamped to a signed word. -/
def round (x : Float) : Int := toWord nearestPart x

/-- The integer nearest to the magnitude of a finite number. -/
def nearestNat (x : Float) : Nat :=
  match read x with
  | .finite _ mantissa exponent => nearestPart mantissa exponent
  | _ => 0

/-! ### Remainder -/

/-- The remainder of the two integer parts, with the sign of the first; none if the second is zero. -/
def remainder? (a b : Float) : Option Float :=
  match read a, read b with
  | left, .finite _ mantissa exponent =>
    let divisor := floorPart mantissa exponent
    if divisor = 0 then none else
      match left with
      | .finite negative mantissa exponent =>
        some (withSign negative (Float.ofNat (floorPart mantissa exponent % divisor)))
      | _ => some nan
  | .finite negative mantissa exponent, .infinite _ =>
    some (withSign negative (Float.ofNat (floorPart mantissa exponent)))
  | _, _ => some nan

end RetroScript.Number
