import RetroScript.Number.Text
import RetroScript.Value

/-!
# The text of a value

Containers are written out in full, map entries by ascending key. A container inside itself is
written `[...]` or `\x7b...\x7d`, so the nesting is never deeper than the number of containers.
-/
namespace RetroScript.Value

def boolText (b : Bool) : String := if b then "true" else "false"

/-- The text of a value inside the containers `outer`, nesting at most `n` deeper. -/
def textIn (h : Heap) : Nat → List Value → Value → String
  | _, _, .number x => Number.text x
  | _, _, .bool b => boolText b
  | _, _, .null => "null"
  | _, _, .string s => s
  | _, _, .closure ref => (h.closure ref).signature
  | 0, _, .array _ => "[...]"
  | 0, _, .map _ => "\x7b...\x7d"
  | n + 1, outer, .array ref =>
    if outer.contains (.array ref) then "[...]"
    else
      let items := (h.array ref).toList.map (textIn h n (.array ref :: outer))
      "[" ++ ", ".intercalate items ++ "]"
  | n + 1, outer, .map ref =>
    if outer.contains (.map ref) then "\x7b...\x7d"
    else
      let entries := (h.map ref).sorted.map fun e => e.1 ++ ": " ++ textIn h n (.map ref :: outer) e.2
      "\x7b" ++ ", ".intercalate entries ++ "\x7d"

/-- What printing a value writes. This depth is never used up: before it is, all containers are open. -/
def text (h : Heap) (v : Value) : String := textIn h (h.containers + 1) [] v

end RetroScript.Value
