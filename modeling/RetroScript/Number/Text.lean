import RetroScript.Number.Binary
import RetroScript.Decimal.Shortest

/-!
# The text of a number

Numbers are shown by the fewest digits that read back, all in place, without an exponent mark. Zero
has no sign.
-/
namespace RetroScript.Number

def signText (negative : Bool) : String := if negative then "-" else ""

def text (x : Float) : String :=
  match read x with
  | .nan => "NaN"
  | .infinite negative => signText negative ++ "inf"
  | .finite negative mantissa exponent =>
    if mantissa = 0 then "0"
    else signText negative ++ String.ofList (Decimal.shortest .up mantissa exponent).positional

end RetroScript.Number
