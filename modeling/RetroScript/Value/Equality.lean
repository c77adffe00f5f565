import RetroScript.Value

/-!
# Deep equality

Containers are equal if they are the same or have equal contents, functions only if they are the
same. A pair of containers that is met again while it is being compared counts as equal, so cyclic
values can be compared.
-/
namespace RetroScript.Value

/-- Compares two values while the pairs `outer` are being compared, nesting at most `n` deeper. -/
def equalIn (h : Heap) : Nat → List (Value × Value) → Value → Value → Bool
  | _, _, .number a, .number b => a == b
  | _, _, .bool a, .bool b => a == b
  | _, _, .null, .null => true
  | _, _, .string a, .string b => a == b
  | _, _, .closure a, .closure b => a == b
  | n, outer, .array a, .array b =>
    if a = b ∨ (Value.array a, Value.array b) ∈ outer then true
    else match n with
      | 0 => true
      | n + 1 =>
        let xs := (h.array a).toList
        let ys := (h.array b).toList
        xs.length == ys.length &&
          (xs.zip ys).all fun p => equalIn h n ((.array a, .array b) :: outer) p.1 p.2
  | n, outer, .map a, .map b =>
    if a = b ∨ (Value.map a, Value.map b) ∈ outer then true
    else match n with
      | 0 => true
      | n + 1 =>
        let xs := h.map a
        let ys := h.map b
        xs.size == ys.size &&
          xs.entries.all fun e =>
            (ys.find? e.1).any fun y => equalIn h n ((.map a, .map b) :: outer) e.2 y
  | _, _, _, _ => false

/-- The number of pairs of containers that can be compared with each other. -/
def pairs (h : Heap) : Nat := h.arrays.size * h.arrays.size + h.maps.size * h.maps.size

/-- Whether two values are equal. This depth is never used up: before it is, all pairs are being compared. -/
def equal (h : Heap) (a b : Value) : Bool := equalIn h (pairs h + 1) [] a b

end RetroScript.Value
