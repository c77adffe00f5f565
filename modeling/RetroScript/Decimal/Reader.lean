/-!
# Reading decimal numerals

`Decimal.read?` accepts an optional sign, then digits with at most one point and an optional
exponent, or one of the words for infinity and not-a-number in any case. The result is the nearest
number.
-/
namespace RetroScript.Decimal

/-- The digits at the start of a text, and the rest. -/
def spanDigits (cs : List Char) : List Char × List Char :=
  (cs.takeWhile Char.isDigit, cs.dropWhile Char.isDigit)

def digitsValue (ds : List Char) : Nat :=
  ds.foldl (fun n c => 10 * n + (c.toNat - '0'.toNat)) 0

/-- The number nearest to `n · 10 ^ e`. -/
def scaled (n : Nat) (e : Int) : Float :=
  Float.ofScientific n (e < 0) e.natAbs

/-- An exponent without its mark: an optional sign and at least one digit. -/
def readExponent? (cs : List Char) : Option Int :=
  let (negative, cs) : Bool × List Char := match cs with
    | '-' :: rest => (true, rest)
    | '+' :: rest => (false, rest)
    | _ => (false, cs)
  match spanDigits cs with
  | ([], _) => none
  | (ds, []) => some (if negative then -(digitsValue ds : Int) else digitsValue ds)
  | _ => none

/-- A numeral without sign. -/
def readUnsigned? (cs : List Char) : Option Float :=
  let (whole, rest) := spanDigits cs
  let (fraction, rest) := match rest with
    | '.' :: rest => spanDigits rest
    | _ => ([], rest)
  let value (e : Int) := scaled (digitsValue (whole ++ fraction)) (e - fraction.length)
  if whole.isEmpty && fraction.isEmpty then none else
    match rest with
    | [] => some (value 0)
    | mark :: rest => if mark = 'e' ∨ mark = 'E' then (readExponent? rest).map value else none

/-- A numeral without sign, or a word. -/
def readMagnitude? (cs : List Char) : Option Float :=
  match String.ofList (cs.map Char.toLower) with
  | "inf" | "infinity" => some (1.0 / 0.0)
  | "nan" => some (0.0 / 0.0)
  | _ => readUnsigned? cs

def read? (text : String) : Option Float :=
  match text.toList with
  | '-' :: rest => (readMagnitude? rest).map (-·)
  | '+' :: rest => readMagnitude? rest
  | cs => readMagnitude? cs

end RetroScript.Decimal
