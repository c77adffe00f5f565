import RetroScript.Decimal.Shortest
import RetroScript.Number.Binary

/-!
# JSON text

`Json` values keep the order of object fields. Text is written in front of what follows it, in one
line (`compact`) or with one item a line (`pretty`).
-/
namespace RetroScript

inductive Json where
  | null
  | bool (b : Bool)
  | natural (n : Nat)
  | number (x : Float)
  | string (s : String)
  | list (items : List Json)
  | object (fields : List (String × Json))

namespace Json

/-- The text of a number: shortest digits in scientific layout; `null` where there are none. -/
def numberText (x : Float) : List Char :=
  match Number.read x with
  | .finite negative mantissa exponent =>
    (if negative then ['-'] else []) ++
      if mantissa = 0 then ['0', '.', '0'] else (Decimal.shortest .even mantissa exponent).scientific
  | _ => ['n', 'u', 'l', 'l']

def hexDigit (n : Nat) : Char := Nat.digitChar n

/-- A character inside quotes: quotes, backslashes and control characters are escaped. -/
def escape (c : Char) : List Char :=
  match c with
  | '"' => ['\\', '"']
  | '\\' => ['\\', '\\']
  | '\n' => ['\\', 'n']
  | '\r' => ['\\', 'r']
  | '\t' => ['\\', 't']
  | c =>
    if c.toNat = 8 then ['\\', 'b']
    else if c.toNat = 12 then ['\\', 'f']
    else if c.toNat < 32 then ['\\', 'u', '0', '0', hexDigit (c.toNat / 16), hexDigit (c.toNat % 16)]
    else [c]

def quote (s : String) (rest : List Char) : List Char :=
  '"' :: (s.toList.flatMap escape ++ '"' :: rest)

def word (s : String) (rest : List Char) : List Char := s.toList ++ rest

/-! ### Layouts -/

/-- How lists and objects are laid out. -/
structure Layout where
  /-- What stands before an item, and before the end of a list that has items, at a depth. -/
  gap : Nat → List Char
  /-- What stands between a name and its value. -/
  colon : List Char
  blank : ∀ depth, ∀ c ∈ gap depth, c = '\n' ∨ c = ' '

/-- All in one line, without blanks. -/
def Layout.line : Layout where
  gap _ := []
  colon := [':']
  blank _ _ inside := nomatch inside

/-- One item a line, with an indent of two blanks for each level. -/
def Layout.indented : Layout where
  gap depth := '\n' :: List.replicate (2 * depth) ' '
  colon := [':', ' ']
  blank _ _ inside := (List.mem_cons.mp inside).imp_right List.eq_of_mem_replicate

mutual

def write (l : Layout) (depth : Nat) : Json → List Char → List Char
  | .null, rest => word "null" rest
  | .bool b, rest => word (if b then "true" else "false") rest
  | .natural n, rest => Nat.toDigits 10 n ++ rest
  | .number x, rest => numberText x ++ rest
  | .string s, rest => quote s rest
  | .list [], rest => '[' :: ']' :: rest
  | .list (x :: xs), rest =>
    '[' :: (l.gap (depth + 1) ++
      write l (depth + 1) x (writeItems l (depth + 1) xs (l.gap depth ++ ']' :: rest)))
  | .object [], rest => '\x7b' :: '\x7d' :: rest
  | .object ((key, x) :: fields), rest =>
    '\x7b' :: (l.gap (depth + 1) ++ quote key (l.colon ++
      write l (depth + 1) x (writeFields l (depth + 1) fields (l.gap depth ++ '\x7d' :: rest))))

/-- The items after the first one. -/
def writeItems (l : Layout) (depth : Nat) : List Json → List Char → List Char
  | [], rest => rest
  | x :: xs, rest => ',' :: (l.gap depth ++ write l depth x (writeItems l depth xs rest))

/-- The fields after the first one. -/
def writeFields (l : Layout) (depth : Nat) : List (String × Json) → List Char → List Char
  | [], rest => rest
  | (key, x) :: fields, rest =>
    ',' :: (l.gap depth ++ quote key (l.colon ++ write l depth x (writeFields l depth fields rest)))

end

def compact (j : Json) : String := String.ofList (j.write .line 0 [])

def pretty (j : Json) : String := String.ofList (j.write .indented 0 [])

end Json

end RetroScript
